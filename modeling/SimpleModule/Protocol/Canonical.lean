import SimpleModule.Protocol.Accepted
import SimpleModule.Protocol.RoundTrip

/-!
# Canonical encodings

The formats accept encodings that `pack` never writes: numbers with leading zero bytes, a
negative zero, and short strings behind a two-byte length.  What has been read is in the
domain of the type all the same, and the encoding that `pack` chooses for it is never
longer than the one that was read.
-/

namespace SimpleModule

open Octets Exits

namespace ArgType

/-! ## Numbers and strings -/

theorem numberLen_le {data width : ℕ} (positive : 1 ≤ width) (narrow : width ≤ 4)
    (bounded : data < 256 ^ width) : FcallArg.numberLen data ≤ width := by
  unfold FcallArg.numberLen
  interval_cases width
  · split_ifs
    all_goals omega
  · split_ifs
    all_goals omega
  · split_ifs
    all_goals omega
  · split_ifs
    all_goals omega

theorem integerOf_number (amount : ℤ) : integerOf (.number amount) = amount := by
  simp [integerOf]

theorem length_encodeNumber_le {bytes : Bytes} {amount : ℤ} (lower : 2 ≤ bytes.length)
    (upper : bytes.length ≤ 5) (bounded : amount.natAbs < 256 ^ (bytes.length - 1)) :
    (encodeNumber amount).length ≤ bytes.length := by
  have shorter := numberLen_le (by omega) (by omega) bounded
  simp only [encodeNumber, List.length_cons, length_le]
  omega

theorem length_encodeString_le {bytes text : Bytes}
    (measured : bytes.length = text.length + 1 ∧ text.length ≤ 254 ∨
      bytes.length = text.length + 3) : (encodeString text).length ≤ bytes.length := by
  unfold encodeString
  split_ifs with short
  · simp only [List.length_append, length_le]
    omega
  · simp only [List.length_cons, List.length_append, length_le]
    omega

theorem Reads.ne_nil {type : ArgType} {bytes : Bytes} {value : LuaValue}
    (reads : type.Reads bytes value) : value ≠ .nil := by
  cases type with
  | number =>
      rcases reads with ⟨amount, rfl, -⟩
      simp
  | byte =>
      rcases reads with ⟨amount, rfl, -⟩
      simp
  | word =>
      rcases reads with ⟨amount, rfl, -⟩
      simp
  | dword =>
      rcases reads with ⟨amount, rfl, -⟩
      simp
  | string =>
      rcases reads with ⟨text, rfl, -⟩
      simp
  | array element size =>
      rcases reads with ⟨pieces, elementAt, -, -, rfl, -⟩
      simp
  | table fields =>
      rcases reads with ⟨contents, rfl, -⟩
      simp

theorem entries_congr {left right : ℕ → LuaValue} {count : ℕ}
    (agree : ∀ position < count, left position = right position) :
    entries left count = entries right count := by
  apply List.map_congr_left
  intro position member
  rw [agree position (List.mem_range.mp member)]

/-! ## Arrays and tables -/

theorem length_flatMap_le {bytesAt : ℕ → Bytes} {pieces : List Bytes}
    (shorter : ∀ position piece, pieces[position]? = some piece →
      (bytesAt position).length ≤ piece.length) :
    ((List.range pieces.length).flatMap bytesAt).length ≤ pieces.flatten.length := by
  induction pieces using List.reverseRecOn with
  | nil => simp
  | append_singleton pieces last ih =>
      have initial := ih fun position piece found => by
        have inside := (List.getElem?_eq_some_iff.mp found).choose
        exact shorter position piece (by rw [List.getElem?_append_left inside, found])
      have final := shorter pieces.length last (by simp)
      simp only [List.length_append, List.length_cons, List.length_nil, zero_add, List.range_succ,
        List.flatMap_append, List.flatMap_cons, List.flatMap_nil, List.append_nil,
        List.flatten_append, List.flatten_cons, List.flatten_nil]
      omega

theorem field_of_mem {contents : List (LuaKey × LuaValue)} {key : LuaKey} {value : LuaValue}
    (distinct : (contents.map Prod.fst).Nodup) (member : (key, value) ∈ contents) :
    (LuaValue.table contents).field key = value := by
  have found : contents.lookup key = some value := by
    induction contents with
    | nil => cases member
    | cons entry rest ih =>
        rw [List.map_cons, List.nodup_cons] at distinct
        rcases List.mem_cons.mp member with rfl | later
        · simp [List.lookup]
        · have different : key ≠ entry.1 := by
            intro same
            apply distinct.1
            rw [← same]
            exact List.mem_map_of_mem later
          rw [List.lookup_cons, beq_false_of_ne different]
          exact ih distinct.2 later
  simp [LuaValue.field, found]

theorem ReadsFields.keys_eq : {fields : TableShape ArgType} → {bytes : Bytes} →
    {contents : List (LuaKey × LuaValue)} → ReadsFields fields bytes contents →
    contents.map Prod.fst = fields.keys
  | .nil, _, _, ⟨_, rfl⟩ => rfl
  | .value _ _ _, _, _, ⟨_, _, _, _, _, rfl, _, others⟩ => by
      simp [TableShape.keys, ReadsFields.keys_eq others]
  | .sub _ _ _, _, _, ⟨_, _, _, _, _, rfl, _, others⟩ => by
      simp [TableShape.keys, ReadsFields.keys_eq others]

theorem FieldsBalanced.nodup {fields : TableShape ArgType} (balanced : FieldsBalanced fields) :
    fields.keys.Nodup := by
  induction fields with
  | nil => exact List.nodup_nil
  | value key type rest ih => exact List.nodup_cons.mpr ⟨balanced.1, ih balanced.2.2⟩
  | sub key inner rest _ ih => exact List.nodup_cons.mpr ⟨balanced.1, ih balanced.2.2⟩

/-- The table that was read has the entries that were read. -/
theorem ReadsFields.field_eq {fields : TableShape ArgType} {bytes : Bytes}
    {contents : List (LuaKey × LuaValue)} (reads : ReadsFields fields bytes contents)
    (balanced : FieldsBalanced fields) :
    ∀ key value, (key, value) ∈ contents → (LuaValue.table contents).field key = value := by
  intro key value member
  apply field_of_mem _ member
  rw [ReadsFields.keys_eq reads]
  exact FieldsBalanced.nodup balanced

/-! ## What is read can be written -/

mutual

/-- A value that was read is one that the type is for, and is encoded no longer. -/
theorem Reads.canonical : {type : ArgType} → {bytes : Bytes} → {value : LuaValue} →
    type.WellFormed → type.Reads bytes value →
    type.InDomain value ∧ type.restrict value = value ∧
      (type.encode value).length ≤ bytes.length
  | .number, _, _, _, ⟨amount, rfl, range, lower, upper, bounded⟩ => by
      refine ⟨⟨amount, rfl, range⟩, rfl, ?_⟩
      rw [encode, integerOf_number]
      exact length_encodeNumber_le lower upper bounded
  | .byte, _, _, _, ⟨amount, rfl, lower, upper, measured⟩ =>
      ⟨⟨amount, rfl, lower, upper⟩, rfl, by rw [encode, length_le, measured]⟩
  | .word, _, _, _, ⟨amount, rfl, range, measured⟩ =>
      ⟨⟨amount, rfl, range⟩, rfl, by rw [encode, length_le, measured]⟩
  | .dword, _, _, _, ⟨amount, rfl, range, measured⟩ =>
      ⟨⟨amount, rfl, range⟩, rfl, by rw [encode, length_le, measured]⟩
  | .string, _, _, _, ⟨text, rfl, short, measured⟩ =>
      ⟨⟨text, rfl, short⟩, rfl, length_encodeString_le measured⟩
  | .array element size, _, _, wellFormed, ⟨pieces, elementAt, rfl, counted, rfl, each⟩ => by
      have canonical (position : ℕ) (piece : Bytes) (found : pieces[position]? = some piece) :=
        Reads.canonical wellFormed.1 (each position piece found)
      have present (position : ℕ) (inside : position < pieces.length) :
          elementAt position ≠ .nil :=
        (each position _ (List.getElem?_eq_getElem inside)).ne_nil
      have count : arrayCount size (.table (entries elementAt pieces.length)) = pieces.length := by
        rw [arrayCount, objlen_entries present]
        split_ifs at counted ⊢
        · rfl
        · exact counted.symm
      have small : pieces.length ≤ 255 := by
        split_ifs at counted
        · exact counted
        · rw [counted]
          exact wellFormed.2
      refine ⟨⟨rfl, by rw [count]; exact small, ?_⟩, ?_, ?_⟩
      · intro position inside
        rw [count] at inside
        rw [index_entries elementAt inside]
        exact (canonical position _ (List.getElem?_eq_getElem inside)).1
      · rw [restrict, count]
        congr 1
        apply entries_congr
        intro position inside
        rw [index_entries elementAt inside]
        exact (canonical position _ (List.getElem?_eq_getElem inside)).2.1
      · have elements : ((List.range pieces.length).flatMap fun position : ℕ =>
            element.encode ((LuaValue.table (entries elementAt pieces.length)).index
              (position + 1))).length ≤ pieces.flatten.length := by
          apply length_flatMap_le
          intro position piece found
          have inside := (List.getElem?_eq_some_iff.mp found).choose
          rw [index_entries elementAt inside]
          exact (canonical position piece found).2.2
        rw [encode, count, List.length_append, List.length_append, objlen_entries present]
        split_ifs
        · simp only [length_le]
          omega
        · omega
  | .table fields, bytes, _, wellFormed, ⟨contents, rfl, reads⟩ => by
      have canonical := ReadsFields.canonical wellFormed.1 reads
        (ReadsFields.field_eq reads (FieldsWellFormed.balanced wellFormed.1))
      exact ⟨⟨rfl, canonical.1⟩, by rw [restrict, canonical.2.1], canonical.2.2⟩

theorem ReadsFields.canonical : {fields : TableShape ArgType} → {bytes : Bytes} →
    {contents : List (LuaKey × LuaValue)} → {whole : LuaValue} → FieldsWellFormed fields →
    ReadsFields fields bytes contents →
    (∀ key value, (key, value) ∈ contents → whole.field key = value) →
    FieldsInDomain fields whole ∧ restrictFields fields whole = contents ∧
      (encodeFields fields whole).length ≤ bytes.length
  | .nil, _, _, _, _, ⟨_, rfl⟩, _ => ⟨trivial, rfl, Nat.zero_le _⟩
  | .value key type fields, _, _, whole, wellFormed,
      ⟨first, later, value, others, rfl, rfl, reading, rest⟩, agrees => by
      have here : whole.field key = value := agrees key value (by simp)
      have head := Reads.canonical wellFormed.2.1 reading
      have tail := ReadsFields.canonical wellFormed.2.2 rest
        fun other entry member => agrees other entry (List.mem_cons_of_mem _ member)
      refine ⟨⟨by rw [here]; exact head.1, tail.1⟩, ?_, ?_⟩
      · rw [restrictFields, here, head.2.1, tail.2.1]
      · rw [encodeFields, here, List.length_append, List.length_append]
        exact Nat.add_le_add head.2.2 tail.2.2
  | .sub key inner fields, _, _, whole, wellFormed,
      ⟨first, later, nested, others, rfl, rfl, reading, rest⟩, agrees => by
      have here : whole.field key = .table nested := agrees key _ (by simp)
      have head := ReadsFields.canonical wellFormed.2.1 reading
        (ReadsFields.field_eq reading (FieldsWellFormed.balanced wellFormed.2.1))
      have tail := ReadsFields.canonical wellFormed.2.2 rest
        fun other entry member => agrees other entry (List.mem_cons_of_mem _ member)
      refine ⟨⟨by rw [here]; rfl, by rw [here]; exact head.1, tail.1⟩, ?_, ?_⟩
      · rw [restrictFields, here, head.2.1, tail.2.1]
      · rw [encodeFields, here, List.length_append, List.length_append]
        exact Nat.add_le_add head.2.2 tail.2.2

end

/-- Whatever a format accepts is packed again into the space it had, and read as the same. -/
theorem pack_of_unpack (numerals : Numerals) {type : ArgType} (wellFormed : type.WellFormed)
    {buf : Bytes} {state after : LuaState} {consumed : ℤ}
    (accepted : type.compile.unpack buf buf.length state = (.ret consumed, after))
    (positive : consumed ≠ 0) :
    ∃ value, after = { state with stack := value :: state.stack } ∧
      ∀ (packing : LuaState) (dataIn : ℤ), packing.valueAt dataIn = value →
        ∃ bytes : Bytes, type.compile.pack numerals dataIn consumed packing =
            (.ret bytes.length, { packing with out := packing.out ++ bytes }) ∧
          0 < bytes.length ∧ bytes.length ≤ consumed ∧
          ∀ (suffix : Bytes) (reading : LuaState),
            type.compile.unpack (bytes ++ suffix) ((bytes ++ suffix).length : ℕ) reading =
              (.ret bytes.length, { reading with stack := value :: reading.stack }) := by
  rcases accepts_unpack type wellFormed.balanced buf state with
    ⟨final, refused, -⟩ | ⟨count, value, -, within, read, reads⟩
  · rw [accepted, Prod.mk.injEq, Exit.ret.injEq] at refused
    exact absurd refused.1 positive
  · rw [accepted, Prod.mk.injEq, Exit.ret.injEq] at read
    rcases read with ⟨rfl, rfl⟩
    rcases Reads.canonical wellFormed reads with ⟨inDomain, restricted, shorter⟩
    have nonempty := List.length_pos_iff.mpr (encode_ne_nil wellFormed inDomain)
    rw [List.length_take, min_eq_left within] at shorter
    refine ⟨value, rfl, ?_⟩
    intro packing dataIn given
    have packs : Packs (type.compile.pack numerals dataIn count) packing packing.stack 0 count
        (type.encode value) := FcallArg.packs_pack numerals type wellFormed inDomain given
    have packed := packs.fits (by omega)
    rw [zero_add] at packed
    refine ⟨type.encode value, packed, nonempty, by omega, ?_⟩
    have unpacks := FcallArg.unpacks_unpack type wellFormed inDomain
    rw [restricted] at unpacks
    exact unpacks

/-- A negative zero in the widest form. -/
theorem pack_of_unpack_negative_zero :
    ∃ value, (⟨[.number 0], [], []⟩ : LuaState) = ⟨[value], [], []⟩ ∧
      ∀ (packing : LuaState) (dataIn : ℤ), packing.valueAt dataIn = value →
        ∃ bytes : Bytes, ArgType.number.compile.pack noNumerals dataIn 5 packing =
            (.ret bytes.length, { packing with out := packing.out ++ bytes }) ∧
          0 < bytes.length ∧ (bytes.length : ℤ) ≤ 5 ∧
          ∀ (suffix : Bytes) (reading : LuaState),
            ArgType.number.compile.unpack (bytes ++ suffix) ((bytes ++ suffix).length : ℕ) reading =
              (.ret bytes.length, { reading with stack := value :: reading.stack }) := by
  have accepted : ArgType.number.compile.unpack [9, 0, 0, 0, 0]
      (([9, 0, 0, 0, 0] : Bytes).length : ℕ) ⟨[], [], []⟩ = (.ret 5, ⟨[.number 0], [], []⟩) := by
    simp [compile, FcallArg.unpack, FcallArg.unpackNumber, FcallArg.checkBuf, FcallArg.fetch,
      Program.bind_apply, ofLe, int32]
  exact pack_of_unpack noNumerals (show ArgType.number.WellFormed from trivial) accepted (by decide)

end ArgType

end SimpleModule
