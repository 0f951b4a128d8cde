import SimpleModule.Protocol.Decode

/-!
# Accepted input

The bytes of a message come from a peer that may send anything.  `Reads` says how bytes
make up a value of a type: an array is its count, if that is not fixed, and one piece for
each element, and a table is one piece for each leaf.  Numbers and strings have other
encodings than the ones that `pack` writes, so for them only the range of the value and the
width of the encoding are stated.

The main result is that on every buffer `unpack` either returns zero or pushes a value that
the bytes it has consumed read as.  It stays inside the buffer in both cases.
-/

namespace SimpleModule

open Octets Exits Decoders

namespace ArgType

mutual

/-- The bytes make up a value of the type. -/
def Reads : ArgType → Bytes → LuaValue → Prop
  | number, bytes, value =>
      ∃ amount : ℤ, value = .number amount ∧ IsInt32 amount ∧ 2 ≤ bytes.length ∧
        bytes.length ≤ 5 ∧ amount.natAbs < 256 ^ (bytes.length - 1)
  | byte, bytes, value =>
      ∃ amount : ℤ, value = .number amount ∧ 0 ≤ amount ∧ amount ≤ 255 ∧ bytes.length = 1
  | word, bytes, value =>
      ∃ amount : ℤ, value = .number amount ∧ IsInt16 amount ∧ bytes.length = 2
  | dword, bytes, value =>
      ∃ amount : ℤ, value = .number amount ∧ IsInt32 amount ∧ bytes.length = 4
  | string, bytes, value =>
      ∃ text : Bytes, value = .string text ∧ text.length ≤ 65534 ∧
        (bytes.length = text.length + 1 ∧ text.length ≤ 254 ∨ bytes.length = text.length + 3)
  | array element size, bytes, value =>
      ∃ (pieces : List Bytes) (elementAt : ℕ → LuaValue),
        bytes = (if size = 0 then le 1 pieces.length else []) ++ pieces.flatten ∧
        (if size = 0 then pieces.length ≤ 255 else pieces.length = size) ∧
        value = .table (entries elementAt pieces.length) ∧
        ∀ position piece, pieces[position]? = some piece →
          element.Reads piece (elementAt position)
  | table fields, bytes, value =>
      ∃ contents, value = .table contents ∧ ReadsFields fields bytes contents

def ReadsFields : TableShape ArgType → Bytes → List (LuaKey × LuaValue) → Prop
  | .nil, bytes, contents => bytes = [] ∧ contents = []
  | .value key type rest, bytes, contents =>
      ∃ first later value others, bytes = first ++ later ∧ contents = (key, value) :: others ∧
        type.Reads first value ∧ ReadsFields rest later others
  | .sub key fields rest, bytes, contents =>
      ∃ first later inner others, bytes = first ++ later ∧
        contents = (key, .table inner) :: others ∧ ReadsFields fields first inner ∧
        ReadsFields rest later others

end

end ArgType

/--
On every buffer the function refuses, or consumes some bytes and pushes a value that is
read from them.
-/
def Accepts (program : Bytes → ℤ → LuaM ℤ) (reads : Bytes → LuaValue → Prop) : Prop :=
  ∀ (buf : Bytes) (state : LuaState),
    Refuses (program buf buf.length) state ∨
      ∃ (consumed : ℕ) (value : LuaValue), 0 < consumed ∧ consumed ≤ buf.length ∧
        program buf buf.length state =
          (.ret consumed, { state with stack := value :: state.stack }) ∧
        reads (buf.take consumed) value

namespace FcallArg

open ArgType

/-! ## Numbers and strings -/

/-- What the decoder reads is read from the bytes that it consumes. -/
def ReadsFrom {α : Type} (decode : Decoder Byte α) (reads : Bytes → α → Prop) : Prop :=
  ∀ buf result consumed, decode buf = some (result, consumed) →
    consumed ≤ buf.length ∧ reads (buf.take consumed) result

theorem accepts_of_decodes {program : Bytes → ℤ → LuaM ℤ} {decode : Decoder Byte LuaValue}
    {reads : Bytes → LuaValue → Prop} (decodes : Decodes program decode)
    (sound : ReadsFrom decode reads) : Accepts program reads := by
  intro buf state
  have pushed := decodes buf state
  rcases read : decode buf with _ | ⟨value, consumed⟩
  · rw [read] at pushed
    exact .inl pushed
  · rw [read] at pushed
    right
    exact ⟨consumed, value, pushed.1, pushed.2.1, pushed.2.2, (sound _ _ _ read).2⟩

theorem readsFrom_decodeFixed {width : ℕ} {read : ℤ → ℤ} {reads : Bytes → LuaValue → Prop}
    (ranged : ∀ (bytes : Bytes) (data : ℕ), bytes.length = width → data < 256 ^ width →
      reads bytes (.number (read data : ℤ))) :
    ReadsFrom (decodeFixed width read) reads := by
  intro buf value consumed decoded
  simp only [decodeFixed] at decoded
  split_ifs at decoded with short
  cases decoded
  refine ⟨not_lt.mp short, ranged _ _ ?_ ofLe_take_lt⟩
  rw [List.length_take]
  omega

theorem readsFrom_byte : ReadsFrom (decodeFixed 1 id) ArgType.byte.Reads := by
  apply readsFrom_decodeFixed
  intro bytes data length bounded
  exact ⟨data, rfl, by omega, by omega, length⟩

theorem readsFrom_word : ReadsFrom (decodeFixed 2 int16) ArgType.word.Reads := by
  apply readsFrom_decodeFixed
  intro bytes data length bounded
  refine ⟨_, rfl, ?_, length⟩
  simp only [IsInt16, int16]
  omega

theorem int32_range (value : ℤ) : IsInt32 (int32 value) := by
  simp only [IsInt32, int32]
  omega

theorem readsFrom_dword : ReadsFrom (decodeFixed 4 int32) ArgType.dword.Reads := by
  apply readsFrom_decodeFixed
  intro bytes data length bounded
  exact ⟨_, rfl, int32_range data, length⟩

/-- A magnitude of up to four bytes is not widened by the conversion to `int`. -/
theorem natAbs_signed_lt {len data : ℕ} (positive : 1 ≤ len) (narrow : len ≤ 4)
    (bounded : data < 256 ^ len) (negative : Prop) [Decidable negative] :
    (if negative then int32 (-int32 data) else int32 data).natAbs < 256 ^ len := by
  have range : data < 2 ^ 31 ∨ len = 4 := by
    interval_cases len
    · omega
    · omega
    · omega
    · exact .inr rfl
  rcases range with small | wide
  · have plain : int32 data = data := int32_eq_self (by simp only [IsInt32]; omega)
    have mirrored : int32 (-data) = -data := int32_eq_self (by simp only [IsInt32]; omega)
    rw [plain, mirrored]
    split_ifs
    · omega
    · omega
  · subst wide
    split_ifs
    · simp only [int32]
      omega
    · simp only [int32]
      omega

theorem readsFrom_decodeNumber : ReadsFrom decodeNumber ArgType.number.Reads := by
  intro buf value consumed decoded
  simp only [decodeNumber] at decoded
  generalize ofLe (buf.take 1) = dataT at decoded
  split_ifs at decoded with invalid negative
  all_goals
    cases decoded
    have width : (buf.take (1 + dataT / 2)).length = 1 + dataT / 2 := by
      rw [List.length_take]
      omega
    have small := natAbs_signed_lt (show 1 ≤ dataT / 2 by omega) (by omega)
      (ofLe_take_lt : ofLe ((buf.drop 1).take (dataT / 2)) < _) (dataT % 2 = 1)
    refine ⟨by omega, _, rfl, int32_range _, by omega, by omega, ?_⟩
    rw [width, Nat.add_sub_cancel_left]
    simpa only [negative, if_true, if_false] using small

theorem readsFrom_decodeChars {offset strId : ℕ} {buf : Bytes} {value : LuaValue} {consumed : ℕ}
    (decoded : decodeChars offset strId buf = some (value, consumed)) :
    consumed ≤ buf.length ∧ ∃ text : Bytes, value = .string text ∧ text.length = strId - 1 ∧
      consumed = offset + text.length := by
  simp only [decodeChars] at decoded
  split_ifs at decoded with refused
  cases decoded
  have length : ((buf.drop offset).take (strId - 1)).length = strId - 1 := by
    rw [List.length_take, List.length_drop]
    omega
  exact ⟨by omega, _, rfl, length, by rw [length]⟩

theorem readsFrom_decodeString : ReadsFrom decodeString ArgType.string.Reads := by
  intro buf value consumed decoded
  have short : ofLe (buf.take 1) < 256 ^ 1 := ofLe_take_lt
  have long : ofLe ((buf.drop 1).take 2) < 256 ^ 2 := ofLe_take_lt
  simp only [decodeString] at decoded
  split_ifs at decoded with empty oneByte cut
  · rcases readsFrom_decodeChars decoded with ⟨inside, text, rfl, length, rfl⟩
    refine ⟨inside, text, rfl, by omega, ?_⟩
    rw [List.length_take]
    omega
  · rcases readsFrom_decodeChars decoded with ⟨inside, text, rfl, length, rfl⟩
    refine ⟨inside, text, rfl, by omega, ?_⟩
    rw [List.length_take]
    omega

/-! ## Arrays -/

/-- The elements that the loop reads from position `i` on, one from each piece. -/
theorem readsFrom_decodeElements {decodeBase : Decoder Byte LuaValue}
    {reads : Bytes → LuaValue → Prop} (sound : ReadsFrom decodeBase reads) (count i : ℕ)
    {buf : Bytes} {contents : List (LuaKey × LuaValue)} {consumed : ℕ}
    (decoded : decodeElements decodeBase count i buf = some (contents, consumed)) :
    consumed ≤ buf.length ∧ ∃ (pieces : List Bytes) (elementAt : ℕ → LuaValue),
      pieces.length = count ∧ pieces.flatten = buf.take consumed ∧
      contents = (List.range count).map (fun position : ℕ =>
        (.number (i + position + 1 : ℤ), elementAt position)) ∧
      ∀ position piece, pieces[position]? = some piece → reads piece (elementAt position) := by
  induction count generalizing i buf contents consumed with
  | zero =>
      cases decoded
      exact ⟨Nat.zero_le _, [], fun _ => .nil, rfl, by simp, rfl, by simp⟩
  | succ count ih =>
      rw [decodeElements, decodeEntry_eq] at decoded
      rcases Option.bind_eq_some_iff.mp decoded with ⟨⟨value, first⟩, here, mapped⟩
      rcases Option.map_eq_some_iff.mp mapped with ⟨⟨others, later⟩, behind, same⟩
      cases same
      rcases sound _ _ _ here with ⟨inside, reading⟩
      rcases ih (i + 1) behind with ⟨within, pieces, elementAt, length, flat, rfl, each⟩
      rw [List.length_drop] at within
      refine ⟨by omega, buf.take first :: pieces,
        Nat.rec value fun position _ => elementAt position, by simp [length], ?_, ?_, ?_⟩
      · rw [List.flatten_cons, flat, List.take_add]
      · rw [List.range_succ_eq_map, List.map_cons, List.map_map]
        congr 1
        apply List.map_congr_left
        intro position _
        simp
        ring
      · intro position piece found
        cases position with
        | zero =>
            cases found
            exact reading
        | succ position => exact each position piece (by simpa using found)

theorem readsFrom_decodeArray {element : ArgType} {decodeBase : Decoder Byte LuaValue}
    (sound : ReadsFrom decodeBase element.Reads) (size : ℕ) :
    ReadsFrom (decodeArray decodeBase size) (ArgType.array element size).Reads := by
  intro buf value consumed decoded
  unfold decodeArray at decoded
  split_ifs at decoded with counted
  · simp only at decoded
    split_ifs at decoded with empty
    rcases Option.map_eq_some_iff.mp decoded with ⟨⟨contents, length⟩, looped, same⟩
    cases same
    rcases readsFrom_decodeElements sound _ 0 looped with
      ⟨inside, pieces, elementAt, count, flat, rfl, each⟩
    have narrow : (buf.take 1).length = 1 := List.length_take_of_le (not_lt.mp empty)
    have written := le_ofLe (buf.take 1)
    have bounded : ofLe (buf.take 1) < 256 ^ 1 := ofLe_take_lt
    rw [List.length_drop] at inside
    rw [narrow, ← count] at written
    refine ⟨by omega, pieces, elementAt, ?_, ?_, ?_, each⟩
    · rw [if_pos counted, flat, written, List.take_add]
    · rw [if_pos counted]
      omega
    · simp [entries, count]
  · rcases Decoder.mapped_eq_some.mp decoded with ⟨contents, looped, rfl⟩
    rcases readsFrom_decodeElements sound _ 0 looped with
      ⟨inside, pieces, elementAt, count, flat, rfl, each⟩
    refine ⟨inside, pieces, elementAt, ?_, ?_, ?_, each⟩
    · rw [if_neg counted, flat, List.nil_append]
    · rw [if_neg counted]
      exact count
    · simp [entries, count]

end FcallArg

/-! ## Tables and the dispatch on the type -/

namespace ArgType

open FcallArg

mutual

/-- What a format decodes is read from the bytes that it consumes. -/
theorem readsFrom_decode : (type : ArgType) → ReadsFrom type.decode type.Reads
  | .number => readsFrom_decodeNumber
  | .byte => readsFrom_byte
  | .word => readsFrom_word
  | .dword => readsFrom_dword
  | .string => readsFrom_decodeString
  | .array element size => readsFrom_decodeArray (readsFrom_decode element) size
  | .table fields => by
      intro buf value consumed decoded
      rcases Option.bind_eq_some_iff.mp decoded with ⟨⟨contents, length⟩, read, found⟩
      simp only at found
      split_ifs at found
      cases found
      rcases readsFrom_decodeFields fields _ _ _ read with ⟨inside, reading⟩
      exact ⟨inside, contents, rfl, reading⟩

theorem readsFrom_decodeFields : (fields : TableShape ArgType) →
    ReadsFrom (decodeFields fields) (ReadsFields fields)
  | .nil => by
      intro buf contents consumed decoded
      cases decoded
      exact ⟨Nat.zero_le _, List.take_zero, rfl⟩
  | .value key type fields => by
      intro buf contents consumed decoded
      rw [decodeFields, decodeEntry_eq] at decoded
      rcases Option.bind_eq_some_iff.mp decoded with ⟨⟨value, first⟩, here, mapped⟩
      rcases Option.map_eq_some_iff.mp mapped with ⟨⟨others, later⟩, behind, same⟩
      cases same
      rcases readsFrom_decode type _ _ _ here with ⟨inside, reading⟩
      rcases readsFrom_decodeFields fields _ _ _ behind with ⟨within, rest⟩
      rw [List.length_drop] at within
      exact ⟨by omega, _, _, value, others, List.take_add, rfl, reading, rest⟩
  | .sub key inner fields => by
      intro buf contents consumed decoded
      rw [decodeFields, decodeEntry_eq] at decoded
      rcases Option.bind_eq_some_iff.mp decoded with ⟨⟨value, first⟩, here, mapped⟩
      rcases Option.map_eq_some_iff.mp mapped with ⟨⟨others, later⟩, behind, same⟩
      cases same
      rcases Decoder.mapped_eq_some.mp here with ⟨nested, read, rfl⟩
      rcases readsFrom_decodeFields inner _ _ _ read with ⟨inside, reading⟩
      rcases readsFrom_decodeFields fields _ _ _ behind with ⟨within, rest⟩
      rw [List.length_drop] at within
      exact ⟨by omega, _, _, nested, others, List.take_add, rfl, reading, rest⟩

end

/-- On every buffer a format refuses, or reads a value of its type from what it consumes. -/
theorem accepts_unpack (type : ArgType) (balanced : type.Balanced) :
    Accepts type.compile.unpack type.Reads :=
  accepts_of_decodes (decodes_unpack type balanced) (readsFrom_decode type)

end ArgType

end SimpleModule
