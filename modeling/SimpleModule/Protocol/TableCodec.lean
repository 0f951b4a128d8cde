import SimpleModule.Protocol.ArgLists
import SimpleModule.Protocol.Marshal

/-!
# Table formats

The format of a table is a flat list of opcodes that is run against the stack of Lua.  What
it stands for is the described structure: a table is packed by a walk through description
and value together, and unpacked by a decoder that follows the description.

The main result is that the opcodes of every description with at most ten tables and some
leaf refine this meaning, in both directions.
-/

namespace SimpleModule

open Octets Exits Decoders ArgType FcallArg NetProtocol

/-! ## Tables with leaves -/

/-- A walk that meets a leaf writes something. -/
theorem encodingFields_ne_nil {numerals : Numerals} : (fields : TableShape ArgType) →
    {value : LuaValue} → {bytes : Bytes} → 1 ≤ fields.valueCount →
    encodingFields numerals fields value = .ok bytes → bytes ≠ []
  | .nil, _, _, leaves, _ => by simp [TableShape.valueCount] at leaves
  | .value key type rest, _, _, _, encoded => by
      rcases Encoding.append_eq_ok.mp encoded with ⟨front, back, here, -, rfl⟩
      simp [encoding_ne_nil type here]
  | .sub key fields rest, value, _, leaves, encoded => by
      simp only [TableShape.valueCount] at leaves
      rw [encodingFields] at encoded
      split_ifs at encoded
      · rcases Encoding.append_eq_ok.mp encoded with ⟨front, back, inner, later, rfl⟩
        intro empty
        rw [List.append_eq_nil_iff] at empty
        by_cases here : 1 ≤ fields.valueCount
        · exact encodingFields_ne_nil fields here inner empty.1
        · exact encodingFields_ne_nil rest (by omega) later empty.2

/-- A decoder that meets a leaf consumes something. -/
theorem decodeFields_pos : (fields : TableShape ArgType) → FieldsBalanced fields → {buf : Bytes} →
    {contents : List (LuaKey × LuaValue)} → {consumed : ℕ} → 1 ≤ fields.valueCount →
    decodeFields fields buf = some (contents, consumed) → 0 < consumed
  | .nil, _, _, _, _, leaves, _ => by simp [TableShape.valueCount] at leaves
  | .value key type rest, balanced, buf, _, _, _, read => by
      rw [decodeFields, decodeEntry_eq] at read
      rcases Option.bind_eq_some_iff.mp read with ⟨⟨value, here⟩, decoded, read⟩
      rcases Option.map_eq_some_iff.mp read with ⟨⟨others, later⟩, -, same⟩
      have pushes := decodes_unpack type balanced.2.1 buf ⟨[], [], []⟩
      rw [decoded] at pushes
      have positive : 0 < here := pushes.1
      simp only [Prod.mk.injEq] at same
      omega
  | .sub key fields rest, balanced, buf, _, _, leaves, read => by
      simp only [TableShape.valueCount] at leaves
      rw [decodeFields, decodeEntry_eq] at read
      rcases Option.bind_eq_some_iff.mp read with ⟨⟨value, here⟩, decoded, read⟩
      rcases Option.map_eq_some_iff.mp read with ⟨⟨others, later⟩, behind, same⟩
      simp only [Prod.mk.injEq] at same
      rcases Option.map_eq_some_iff.mp decoded with ⟨⟨inner, length⟩, entered, mapped⟩
      simp only [Prod.mk.injEq] at mapped
      by_cases some : 1 ≤ fields.valueCount
      · have positive := decodeFields_pos fields balanced.2.1 some entered
        omega
      · have positive := decodeFields_pos rest balanced.2.2 (by omega) behind
        omega

/-! ## The refinement -/

section Refinement

variable {numerals : Numerals} {types : TableShape ArgType}

theorem encoding_table {value : LuaValue} (isTable : value.isTable = true) {bytes : Bytes}
    (leaves : 1 ≤ types.valueCount) (encoded : encodingFields numerals types value = .ok bytes) :
    (ArgType.table types).encoding numerals value = .ok bytes :=
  encodingTable_ok.mpr ⟨isTable, encoded, encodingFields_ne_nil types leaves encoded⟩

theorem encoding_table_error {value : LuaValue} (isTable : value.isTable = true)
    {reason : Unencodable} (failed : encodingFields numerals types value = .error reason) :
    (ArgType.table types).encoding numerals value = .error reason := by
  rw [encoding, encodingTable, if_pos isTable, failed]
  rfl

/-- What is decoded from a buffer is the decoded fields, if there is a leaf. -/
theorem decode_table (balanced : FieldsBalanced types) (leaves : 1 ≤ types.valueCount)
    (buf : Bytes) : (ArgType.table types).decode buf = (decodeFields types).mapped .table buf := by
  rw [decode, decodeTable, Decoder.mapped]
  rcases read : decodeFields types buf with _ | ⟨contents, consumed⟩
  · rfl
  · have positive := decodeFields_pos types balanced leaves read
    simp only [Option.bind_some, Option.map_some]
    rw [if_neg (by omega)]

theorem valueCount_compileFields (types : TableShape ArgType) :
    (compileFields types).valueCount = types.valueCount := by
  induction types with
  | nil => rfl
  | value key type rest ih => simp [compileFields, TableShape.valueCount, ih]
  | sub key fields rest ihFields ih => simp [compileFields, TableShape.valueCount, ihFields, ih]

/--
The opcodes of a description with at most ten tables and some leaf refine its meaning.  A
table is packed as the leaves that a walk through description and value finds, if it finds
them all; on every buffer the table and the length are those of the decoder that follows
the description, and `unpack` fails exactly if the decoder does.
-/
theorem travelTable_refines {args : List ArgObj} (registered : Registered args)
    {fields : List (LuaKey × LuaValue)} {shape : TableShape FcallArg}
    (described : Describes numerals args fields shape) (few : shape.tableCount ≤ 10)
    (leaves : 1 ≤ shape.valueCount) (hashstr : Bytes) :
    ∃ (final : Travel) (types : TableShape ArgType),
      travelTable numerals args fields ⟨0, [], hashstr⟩ = (.ret (), final) ∧
      compileFields types = shape ∧
      (∀ value : LuaValue, value.isTable = true →
        (∀ bytes, encodingFields numerals types value = .ok bytes →
          PacksExactly numerals (.table final.opcodes) value bytes) ∧
        ∀ reason, encodingFields numerals types value = .error reason → reason ≠ .overflow →
          NeverPacks numerals (.table final.opcodes) value) ∧
      ∀ (buf : Bytes) (state : LuaState),
        (∀ contents consumed, decodeFields types buf = some (contents, consumed) →
          0 < consumed ∧ FcallArg.unpack (.table final.opcodes) buf buf.length state =
            (.ret consumed, { state with stack := .table contents :: state.stack })) ∧
        (decodeFields types buf = none →
          ∃ after,
            FcallArg.unpack (.table final.opcodes) buf buf.length state = (.ret 0, after)) := by
  rcases registered.describes described with ⟨types, balanced, rfl, -⟩
  rcases travelTable_opcodes described few hashstr with ⟨final, travelled, bracketed⟩
  rw [valueCount_compileFields] at leaves
  have compiled : FcallArg.table final.opcodes = (ArgType.table types).compile := by
    rw [bracketed, compile]
  refine ⟨final, types, travelled, rfl, ?_, ?_⟩
  · intro value isTable
    rw [compiled]
    refine ⟨?_, ?_⟩
    · intro bytes encoded
      exact packsExactly_of_encoding (encoding_table isTable leaves encoded)
    · intro reason failed bounded
      exact neverPacks_of_encoding (encoding_table_error isTable failed) bounded
  · intro buf state
    rw [compiled]
    have pushes := decodes_unpack (.table types) balanced buf state
    rw [decode_table balanced leaves buf, Decoder.mapped] at pushes
    refine ⟨?_, ?_⟩
    · intro contents consumed read
      rw [read] at pushes
      exact ⟨pushes.1, pushes.2.2⟩
    · intro refused
      rw [refused] at pushes
      rcases pushes with ⟨after, returned, -⟩
      exact ⟨after, returned⟩

theorem compile_eq_byte {type : ArgType} (compiled : type.compile = .byte) : type = .byte := by
  cases type with
  | byte => rfl
  | number => cases compiled
  | word => cases compiled
  | dword => cases compiled
  | string => cases compiled
  | array element size => cases compiled
  | table fields => cases compiled

theorem compile_eq_word {type : ArgType} (compiled : type.compile = .word) : type = .word := by
  cases type with
  | word => rfl
  | number => cases compiled
  | byte => cases compiled
  | dword => cases compiled
  | string => cases compiled
  | array element size => cases compiled
  | table fields => cases compiled

theorem compileFields_eq_nil (compiled : compileFields types = .nil) : types = .nil := by
  cases types with
  | nil => rfl
  | value key type rest => cases compiled
  | sub key fields rest => cases compiled

theorem compileFields_eq_value {key : LuaKey} {codec : FcallArg} {rest : TableShape FcallArg}
    (compiled : compileFields types = .value key codec rest) :
    ∃ type others, types = .value key type others ∧ type.compile = codec ∧
      compileFields others = rest := by
  cases types with
  | nil => cases compiled
  | value key type others =>
      cases compiled
      exact ⟨type, others, rfl, rfl, rfl⟩
  | sub key fields others => cases compiled

theorem compileFields_eq_sub {key : LuaKey} {inner rest : TableShape FcallArg}
    (compiled : compileFields types = .sub key inner rest) :
    ∃ fields others, types = .sub key fields others ∧ compileFields fields = inner ∧
      compileFields others = rest := by
  cases types with
  | nil => cases compiled
  | value key type others => cases compiled
  | sub key fields others =>
      cases compiled
      exact ⟨fields, others, rfl, rfl, rfl⟩

/-- A sample with a byte and a table of a word and a byte. -/
def nestedFields : List (LuaKey × LuaValue) :=
  [(.string (ofString "a"), .string (ofString "byte")),
    (.string (ofString "b"), .table [(.string (ofString "c"), .string (ofString "word")),
      (.string (ofString "d"), .string (ofString "byte"))])]

/-- The contents of a table of its form. -/
def nestedContents : List (LuaKey × LuaValue) :=
  [(.string (ofString "a"), .number (7 : ℤ)),
    (.string (ofString "b"), .table [(.string (ofString "c"), .number (300 : ℤ)),
      (.string (ofString "d"), .number (8 : ℤ))])]

theorem travelTable_refines_nested :
    ∃ final, travelTable noNumerals initArgs nestedFields ⟨0, [], []⟩ = (.ret (), final) ∧
      PacksExactly noNumerals (.table final.opcodes) (.table nestedContents) [7, 44, 1, 8] ∧
      FcallArg.unpack (.table final.opcodes) [7, 44, 1, 8, 9] 5 ⟨[], [], []⟩ =
        (.ret 4, ⟨[.table nestedContents], [], []⟩) ∧
      ∃ after, FcallArg.unpack (.table final.opcodes) [7, 44] 2 ⟨[], [], []⟩ = (.ret 0, after) := by
  have named (text : Bytes) : LuaKey.IsName (.string text) := trivial
  have byte : getArg initArgs (ofString "byte") =
      some ⟨ofString "byte", ofString "byte", .byte⟩ := rfl
  have word : getArg initArgs (ofString "word") =
      some ⟨ofString "word", ofString "word", .word⟩ := rfl
  have described : Describes noNumerals initArgs nestedFields
      (.value (.string (ofString "a")) .byte (.sub (.string (ofString "b"))
        (.value (.string (ofString "c")) .word (.value (.string (ofString "d")) .byte .nil))
        .nil)) :=
    .value (named _) (by decide) rfl byte (.sub (named _) (by simp)
      (.value (named _) (by decide) rfl word (.value (named _) (by simp) rfl byte .nil)) .nil)
  rcases travelTable_refines registered_initArgs described (by decide) (by decide) [] with
    ⟨final, types, travelled, compiled, packs, unpacks⟩
  -- The description determines the types of its leaves.
  rcases compileFields_eq_value compiled with ⟨first, others, rfl, isByte, behind⟩
  rcases compileFields_eq_sub behind with ⟨fields, rest, rfl, inner, last⟩
  rcases compileFields_eq_value inner with ⟨second, more, rfl, isWord, innerRest⟩
  rcases compileFields_eq_value innerRest with ⟨third, none, rfl, isByte', innerLast⟩
  obtain rfl := compile_eq_byte isByte
  obtain rfl := compile_eq_word isWord
  obtain rfl := compile_eq_byte isByte'
  obtain rfl := compileFields_eq_nil last
  obtain rfl := compileFields_eq_nil innerLast
  refine ⟨final, travelled, ?_, ?_, ?_⟩
  · exact (packs (.table nestedContents) rfl).1 _ (by decide +kernel)
  · refine ((unpacks [7, 44, 1, 8, 9] ⟨[], [], []⟩).1 nestedContents 4 ?_).2
    have seven : ofLe [7] = 7 := rfl
    have wide : int16 (ofLe [44, 1]) = 300 := by decide
    have eight : ofLe [8] = 8 := rfl
    simp [nestedContents, decodeFields, decodeEntry, Decoder.append, Decoder.mapped, Decoder.give,
      decode, decodeFixed, seven, wide, eight]
  · exact (unpacks [7, 44] ⟨[], [], []⟩).2 rfl

end Refinement

end SimpleModule
