import SimpleModule.Lib.Decoders
import SimpleModule.Protocol.Codec

/-!
# Decoding

The formats unpack a value onto the stack of Lua.  `ArgType.decode` is what they compute,
as a function from the buffer to a value and the number of bytes consumed.  The main
result is that every format refines its decoder on every buffer, whatever is on the stack:
it pushes the decoded value and returns what the decoder consumes, or returns zero.  It
stays inside the buffer in both cases.
-/

namespace SimpleModule

open Octets Exits Decoders

/-- The program returns zero and calls no script function. -/
def Refuses (program : LuaM ℤ) (state : LuaState) : Prop :=
  ∃ final, program state = (.ret 0, final) ∧ final.calls = state.calls

/-- What a program does with the value that is read from a buffer of some length. -/
def Pushes (program : LuaM ℤ) (state : LuaState) (bufLen : ℕ) : Option (LuaValue × ℕ) → Prop
  | none => Refuses program state
  | some (value, consumed) =>
      0 < consumed ∧ consumed ≤ bufLen ∧
        program state = (.ret consumed, { state with stack := value :: state.stack })

theorem Pushes.of_eq {program other : LuaM ℤ} {state : LuaState} {bufLen : ℕ}
    {read : Option (LuaValue × ℕ)} (pushes : Pushes other state bufLen read)
    (same : program state = other state) : Pushes program state bufLen read := by
  cases read with
  | none =>
      rcases pushes with ⟨final, returned, calls⟩
      exact ⟨final, same.trans returned, calls⟩
  | some result => exact ⟨pushes.1, pushes.2.1, same.trans pushes.2.2⟩

/-- The function pushes what the decoder reads, and refuses if it reads nothing. -/
def Decodes (program : Bytes → ℤ → LuaM ℤ) (decode : Decoder Byte LuaValue) : Prop :=
  ∀ (buf : Bytes) (state : LuaState),
    Pushes (program buf buf.length) state buf.length (decode buf)

namespace FcallArg

/-! ## Numbers and strings -/

def decodeNumber : Decoder Byte LuaValue := fun buf =>
  let dataT := ofLe (buf.take 1)
  let len := dataT / 2
  if buf.length < 1 ∨ len ≤ 0 ∨ len ≥ 5 ∨ buf.length < 1 + len then none
  else
    let data := int32 (ofLe ((buf.drop 1).take len))
    some (.number (if dataT % 2 = 1 then int32 (-data) else data : ℤ), 1 + len)

def decodeFixed (width : ℕ) (read : ℤ → ℤ) : Decoder Byte LuaValue := fun buf =>
  if buf.length < width then none
  else some (.number (read (ofLe (buf.take width)) : ℤ), width)

/-- A string of `strId - 1` bytes behind its length field. -/
def decodeChars (offset strId : ℕ) : Decoder Byte LuaValue := fun buf =>
  if strId = 0 ∨ buf.length < offset + (strId - 1) then none
  else some (.string ((buf.drop offset).take (strId - 1)), offset + (strId - 1))

def decodeString : Decoder Byte LuaValue := fun buf =>
  if buf.length < 1 then none
  else if ofLe (buf.take 1) > 0 then decodeChars 1 (ofLe (buf.take 1)) buf
  else if buf.length < 3 then none
  else decodeChars 3 (ofLe ((buf.drop 1).take 2)) buf

theorem decodes_unpackNumber : Decodes unpackNumber decodeNumber := by
  intro buf state
  unfold decodeNumber
  by_cases header : buf.length < 1
  · simp only [header, true_or, if_true]
    exact ⟨state, checkBuf_of_gt (by omega) _ state, rfl⟩
  · have first := fetch_of_le (show 0 + 1 ≤ buf.length by omega) state
    have start : unpackNumber buf buf.length state =
        (if ofLe (buf.take 1) / 2 ≤ 0 ∨ ofLe (buf.take 1) / 2 ≥ 5 then pure 0
        else checkBuf (1 + (ofLe (buf.take 1) / 2 : ℕ)) buf.length do
          let data := int32 (ofLe (← fetch buf 1 (ofLe (buf.take 1) / 2)))
          Lua.push (.number (if ofLe (buf.take 1) % 2 = 1 then int32 (-data) else data : ℤ))
          return 1 + (ofLe (buf.take 1) / 2 : ℕ)) state := by
      rw [unpackNumber, checkBuf_of_le (by omega), Program.bind_of_ret first]
      rfl
    generalize ofLe (buf.take 1) = dataT at start
    by_cases invalid : dataT / 2 ≤ 0 ∨ dataT / 2 ≥ 5
    · rw [if_pos invalid] at start
      rw [if_pos (by omega)]
      exact ⟨state, start, rfl⟩
    · rw [if_neg invalid] at start
      by_cases short : buf.length < 1 + dataT / 2
      · rw [if_pos (by omega)]
        exact ⟨state, start.trans (checkBuf_of_gt (by omega) _ state), rfl⟩
      · have second := fetch_of_le (show 1 + dataT / 2 ≤ buf.length by omega) state
        rw [if_neg (by omega)]
        refine ⟨by omega, by omega, start.trans ?_⟩
        rw [checkBuf_of_le (by omega), Program.bind_of_ret second]
        push_cast
        rfl

theorem decodes_unpackFixed {width : ℕ} (positive : 0 < width) (read : ℤ → ℤ) :
    Decodes (unpackFixed width read) (decodeFixed width read) := by
  intro buf state
  unfold decodeFixed
  by_cases short : buf.length < width
  · rw [if_pos short]
    exact ⟨state, checkBuf_of_gt (by omega) _ state, rfl⟩
  · have fetched := fetch_of_le (show 0 + width ≤ buf.length by omega) state
    rw [if_neg short]
    refine ⟨positive, by omega, ?_⟩
    rw [unpackFixed, checkBuf_of_le (by omega), Program.bind_of_ret fetched]
    rfl

theorem pushes_unpackChars (buf : Bytes) {offset : ℕ} (positive : 0 < offset) (strId : ℕ)
    (state : LuaState) :
    Pushes (unpackChars buf buf.length offset strId) state buf.length
      (decodeChars offset strId buf) := by
  unfold unpackChars decodeChars
  by_cases empty : strId = 0
  · simp only [empty, true_or, if_true]
    exact ⟨state, rfl, rfl⟩
  · rw [if_neg empty]
    by_cases short : buf.length < offset + (strId - 1)
    · rw [if_pos (.inr short)]
      exact ⟨state, checkBuf_of_gt (by omega) _ state, rfl⟩
    · have fetched := fetch_of_le (show offset + (strId - 1) ≤ buf.length by omega) state
      rw [if_neg (by omega)]
      refine ⟨by omega, by omega, ?_⟩
      rw [checkBuf_of_le (by omega), Program.bind_of_ret fetched]
      push_cast
      rfl

theorem decodes_unpackString : Decodes unpackString decodeString := by
  intro buf state
  unfold decodeString
  by_cases header : buf.length < 1
  · rw [if_pos header]
    exact ⟨state, checkBuf_of_gt (by omega) _ state, rfl⟩
  · have first := fetch_of_le (show 0 + 1 ≤ buf.length by omega) state
    have start : unpackString buf buf.length state =
        (if ofLe (buf.take 1) > 0 then
          if ofLe (buf.take 1) = 1 then do
            Lua.push (.string [])
            return 1
          else unpackChars buf buf.length 1 (ofLe (buf.take 1))
        else checkBuf 3 buf.length do
          let strId := ofLe (← fetch buf 1 2)
          unpackChars buf buf.length 3 strId) state := by
      rw [unpackString, checkBuf_of_le (by omega), Program.bind_of_ret first]
      rfl
    rw [if_neg header]
    generalize ofLe (buf.take 1) = strId at start
    by_cases short : strId > 0
    · rw [if_pos short] at start
      rw [if_pos short]
      by_cases empty : strId = 1
      · subst empty
        have nothing : decodeChars 1 1 buf = some (.string [], 1) := by
          rw [decodeChars, if_neg (by omega)]
          rfl
        rw [nothing]
        exact ⟨Nat.one_pos, by omega, start⟩
      · rw [if_neg empty] at start
        exact (pushes_unpackChars buf Nat.one_pos strId state).of_eq start
    · rw [if_neg short] at start
      rw [if_neg short]
      by_cases cut : buf.length < 3
      · rw [if_pos cut]
        exact ⟨state, start.trans (checkBuf_of_gt (by omega) _ state), rfl⟩
      · have second := fetch_of_le (show 1 + 2 ≤ buf.length by omega) state
        rw [checkBuf_of_le (by omega), Program.bind_of_ret second] at start
        rw [if_neg cut]
        exact (pushes_unpackChars buf (by omega) _ state).of_eq start

/-! ## Sequences -/

/-- A table of one entry. -/
def decodeEntry (key : LuaKey) (decode : Decoder Byte LuaValue) :
    Decoder Byte (List (LuaKey × LuaValue)) :=
  decode.mapped fun value => [(key, value)]

/-- As many elements as counted, from position `i` on. -/
def decodeElements (decodeBase : Decoder Byte LuaValue) :
    (count i : ℕ) → Decoder Byte (List (LuaKey × LuaValue))
  | 0, _ => .give []
  | count + 1, i =>
      (decodeEntry (.number (i + 1 : ℤ)) decodeBase).append
        (decodeElements decodeBase count (i + 1))

def decodeArray (decodeBase : Decoder Byte LuaValue) (size : ℕ) : Decoder Byte LuaValue :=
  if size = 0 then fun buf =>
    if buf.length < 1 then none
    else
      (decodeElements decodeBase (ofLe (buf.take 1)) 0 (buf.drop 1)).map fun (entries, consumed) =>
        (.table entries, 1 + consumed)
  else (decodeElements decodeBase size 0).mapped .table

/-- A table is refused if it is without leaves. -/
def decodeTable (decodeFields : Decoder Byte (List (LuaKey × LuaValue))) :
    Decoder Byte LuaValue := fun buf =>
  (decodeFields buf).bind fun (contents, consumed) =>
    if consumed = 0 then none else some (.table contents, consumed)

theorem decodeEntry_eq (key : LuaKey) (decode : Decoder Byte LuaValue)
    (rest : Decoder Byte (List (LuaKey × LuaValue))) (buf : Bytes) :
    (decodeEntry key decode).append rest buf =
      (decode buf).bind fun (value, consumed) =>
        (rest (buf.drop consumed)).map fun (others, later) =>
          ((key, value) :: others, consumed + later) := by
  rcases read : decode buf with _ | ⟨value, consumed⟩
  · simp [decodeEntry, Decoder.append, Decoder.mapped, read]
  · simp [decodeEntry, Decoder.append, Decoder.mapped, read]

/-- A nested format that refuses makes the whole value refused. -/
theorem refuses_afterUnpack {nested : LuaM ℤ} {state : LuaState} (refused : Refuses nested state)
    (top index : ℤ) (rest : ℤ → LuaM ℤ) :
    Refuses (nested >>= fun curReaded => afterUnpack top curReaded index (rest curReaded))
      state := by
  rcases refused with ⟨final, returned, calls⟩
  refine ⟨{ final with stack := final.stack.drop (final.stack.length - top.toNat) }, ?_, calls⟩
  rw [Program.bind_of_ret returned, afterUnpack, if_pos rfl]
  rfl

theorem refuses_of_eq {program other : LuaM ℤ} {state after : LuaState}
    (refused : Refuses other after) (same : program state = other after)
    (calls : after.calls = state.calls) : Refuses program state := by
  rcases refused with ⟨final, returned, unchanged⟩
  exact ⟨final, same.trans returned, unchanged.trans calls⟩

theorem rawset_fresh {acc : List (LuaKey × LuaValue)} {key : LuaKey}
    (fresh : key ∉ acc.map Prod.fst) (entry : LuaValue) (stack : List LuaValue) (out : Bytes)
    (calls : List (LuaValue × List LuaValue)) :
    Lua.rawset (-3) ⟨entry :: key.toValue :: .table acc :: stack, out, calls⟩ =
      (.ret (), ⟨.table (acc ++ [(key, entry)]) :: stack, out, calls⟩) := by
  have addressed :
      LuaState.slot ⟨entry :: key.toValue :: .table acc :: stack, out, calls⟩ (-3) = 2 := by
    simp [LuaState.slot]
  rw [Lua.rawset_apply stack out calls acc key entry addressed,
    LuaValue.setField_of_fresh fresh]

theorem fresh_append {fields : TableShape ArgType} {acc : List (LuaKey × LuaValue)} {key : LuaKey}
    {entry : LuaValue} (distinct : key ∉ fields.keys)
    (fresh : ∀ other ∈ fields.keys, other ∉ acc.map Prod.fst) :
    ∀ other ∈ fields.keys, other ∉ (acc ++ [(key, entry)]).map Prod.fst := by
  intro other member
  have different : other ≠ key := fun same => distinct (same ▸ member)
  simpa [different] using fresh other member

theorem length_sub_start {buf : Bytes} {start : ℕ} (inside : start ≤ buf.length) :
    (buf.length : ℤ) - start = (buf.drop start).length := by
  rw [List.length_drop]
  omega

section Elements

variable {unpackBase : Bytes → ℤ → LuaM ℤ} {decodeBase : Decoder Byte LuaValue}

/-- The keys from a position on are not yet in the table. -/
def FreshFrom (i : ℕ) (acc : List (LuaKey × LuaValue)) : Prop :=
  ∀ j : ℕ, i ≤ j → LuaKey.number (j + 1 : ℤ) ∉ acc.map Prod.fst

theorem FreshFrom.append {i : ℕ} {acc : List (LuaKey × LuaValue)} (fresh : FreshFrom i acc)
    (value : LuaValue) : FreshFrom (i + 1) (acc ++ [(.number (i + 1 : ℤ), value)]) := by
  intro j later
  have absent := fresh j (by omega)
  have different : j ≠ i := by omega
  simpa [different] using absent

/-- The loop stores the decoded elements behind the earlier entries. -/
theorem unpackElements_eq (decodes : Decodes unpackBase decodeBase)
    (top : ℤ) (buf : Bytes) (count i start : ℕ) (inside : start ≤ buf.length)
    {acc : List (LuaKey × LuaValue)} (fresh : FreshFrom i acc) (stack : List LuaValue) (out : Bytes)
    (calls : List (LuaValue × List LuaValue)) :
    match decodeElements decodeBase count i (buf.drop start) with
    | none =>
        Refuses (unpackElements unpackBase top (stack.length + 1) buf buf.length count i start)
          ⟨.table acc :: stack, out, calls⟩
    | some (entries, consumed) => count ≤ consumed ∧ start + consumed ≤ buf.length ∧
        unpackElements unpackBase top (stack.length + 1) buf buf.length count i start
            ⟨.table acc :: stack, out, calls⟩ =
          (.ret (start + consumed : ℕ), ⟨.table (acc ++ entries) :: stack, out, calls⟩) := by
  induction count generalizing i start acc with
  | zero =>
      refine ⟨le_rfl, inside, ?_⟩
      simp [unpackElements, Program.bind_apply, Lua.assert]
  | succ count ih =>
      have pushed := decodes (buf.drop start) ⟨(LuaKey.number (i + 1 : ℤ)).toValue ::
        .table acc :: stack, out, calls⟩
      rw [← length_sub_start inside] at pushed
      have begin : unpackElements unpackBase top (stack.length + 1) buf buf.length (count + 1) i
          start ⟨.table acc :: stack, out, calls⟩ =
          (unpackBase (buf.drop start) (buf.length - start) >>= fun curReaded =>
            afterUnpack top curReaded (stack.length + 1) (unpackElements unpackBase top
              (stack.length + 1) buf buf.length count (i + 1) (start + curReaded)))
            ⟨(LuaKey.number (i + 1 : ℤ)).toValue :: .table acc :: stack, out, calls⟩ := rfl
      rw [decodeElements, decodeEntry_eq]
      rcases read : decodeBase (buf.drop start) with _ | ⟨value, consumed⟩
      · rw [read] at pushed
        exact refuses_afterUnpack pushed top _ _
      · rw [read] at pushed
        rcases pushed with ⟨positive, within, returned⟩
        rw [List.length_drop] at within
        have stored := Lua.rawset_apply stack out calls acc (LuaKey.number (i + 1 : ℤ)) value
          (LuaState.slot_third _ _ _ stack out calls)
        rw [LuaValue.setField_of_fresh (fresh i le_rfl)] at stored
        have goesOn : unpackElements unpackBase top (stack.length + 1) buf buf.length (count + 1) i
            start ⟨.table acc :: stack, out, calls⟩ =
            unpackElements unpackBase top (stack.length + 1) buf buf.length count (i + 1 : ℕ)
              (start + consumed : ℕ)
              ⟨.table (acc ++ [(.number (i + 1 : ℤ), value)]) :: stack, out, calls⟩ := by
          refine begin.trans ((Program.bind_of_ret returned).trans ?_)
          rw [afterUnpack, if_neg (by omega)]
          refine (Program.bind_of_ret stored).trans ?_
          push_cast
          rfl
        have later := ih (i + 1) (start + consumed) (by omega) (fresh.append value)
        simp only [Option.bind_some, List.drop_drop]
        rcases rest : decodeElements decodeBase count (i + 1) (buf.drop (start + consumed)) with
          _ | ⟨entries, more⟩
        · rw [rest] at later
          exact refuses_of_eq later goesOn rfl
        · rw [rest] at later
          rcases later with ⟨enough, bounded, ended⟩
          refine ⟨by omega, by omega, goesOn.trans (ended.trans ?_)⟩
          simp [add_assoc]

theorem decodes_unpackArray (decodes : Decodes unpackBase decodeBase)
    (size : ℕ) : Decodes (unpackArray unpackBase size) (decodeArray decodeBase size) := by
  intro buf state
  have nothingYet : FreshFrom 0 [] := by simp [FreshFrom]
  unfold decodeArray
  by_cases counted : size = 0
  · subst counted
    have begin : unpackArray unpackBase 0 buf buf.length state =
        checkBuf 1 buf.length (do
          let arrayLen := ofLe (← fetch buf 0 1)
          unpackElements unpackBase state.stack.length (state.stack.length + 1) buf buf.length
            arrayLen 0 1) ⟨.table [] :: state.stack, state.out, state.calls⟩ := rfl
    rw [if_pos rfl]
    by_cases header : buf.length < 1
    · rw [if_pos header]
      exact ⟨_, begin.trans (checkBuf_of_gt (by omega) _ _), rfl⟩
    · have fetched := fetch_of_le (show 0 + 1 ≤ buf.length by omega)
        ⟨.table [] :: state.stack, state.out, state.calls⟩
      have looped := unpackElements_eq decodes state.stack.length buf
        (ofLe (buf.take 1)) 0 1 (by omega) nothingYet state.stack state.out state.calls
      rw [checkBuf_of_le (by omega), Program.bind_of_ret fetched] at begin
      rw [if_neg header]
      rcases read : decodeElements decodeBase (ofLe (buf.take 1)) 0 (buf.drop 1) with
        _ | ⟨entries, consumed⟩
      · rw [read] at looped
        exact refuses_of_eq looped begin rfl
      · rw [read] at looped
        exact ⟨by omega, looped.2.1, begin.trans looped.2.2⟩
  · have begin : unpackArray unpackBase size buf buf.length state =
        unpackElements unpackBase state.stack.length (state.stack.length + 1) buf buf.length
          size 0 0 ⟨.table [] :: state.stack, state.out, state.calls⟩ := by
      rw [unpackArray, Program.bind_of_ret (Lua.gettop_apply _),
        Program.bind_of_ret (Lua.newtable_apply _), if_neg (by omega), Int.toNat_natCast]
    have looped := unpackElements_eq decodes state.stack.length buf size 0 0
      (by omega) nothingYet state.stack state.out state.calls
    rw [List.drop_zero] at looped
    rw [if_neg counted, Decoder.mapped]
    rcases read : decodeElements decodeBase size 0 buf with _ | ⟨entries, consumed⟩
    · rw [read] at looped
      exact refuses_of_eq looped begin rfl
    · rw [read] at looped
      rcases looped with ⟨enough, within, ended⟩
      rw [Nat.zero_add] at within ended
      exact ⟨by omega, within, begin.trans ended⟩

end Elements

end FcallArg

/-! ## Tables and the dispatch on the type -/

namespace ArgType

open FcallArg

mutual

/-- Distinct keys in every table; the type may be without leaves. -/
def Balanced : ArgType → Prop
  | number => True
  | byte => True
  | word => True
  | dword => True
  | string => True
  | array element _ => element.Balanced
  | table fields => FieldsBalanced fields

def FieldsBalanced : TableShape ArgType → Prop
  | .nil => True
  | .value key type rest => key ∉ rest.keys ∧ type.Balanced ∧ FieldsBalanced rest
  | .sub key fields rest => key ∉ rest.keys ∧ FieldsBalanced fields ∧ FieldsBalanced rest

end

mutual

theorem WellFormed.balanced : {type : ArgType} → type.WellFormed → type.Balanced
  | .number, _ => trivial
  | .byte, _ => trivial
  | .word, _ => trivial
  | .dword, _ => trivial
  | .string, _ => trivial
  | .array _ _, wellFormed => wellFormed.1.balanced
  | .table _, wellFormed => FieldsWellFormed.balanced wellFormed.1

theorem FieldsWellFormed.balanced : {fields : TableShape ArgType} → FieldsWellFormed fields →
    FieldsBalanced fields
  | .nil, _ => trivial
  | .value _ _ _, wellFormed =>
      ⟨wellFormed.1, wellFormed.2.1.balanced, FieldsWellFormed.balanced wellFormed.2.2⟩
  | .sub _ _ _, wellFormed =>
      ⟨wellFormed.1, FieldsWellFormed.balanced wellFormed.2.1,
        FieldsWellFormed.balanced wellFormed.2.2⟩

end

mutual

/-- What a format reads from a buffer. -/
def decode : ArgType → Decoder Byte LuaValue
  | number => decodeNumber
  | byte => decodeFixed 1 id
  | word => decodeFixed 2 int16
  | dword => decodeFixed 4 int32
  | string => decodeString
  | array element size => decodeArray element.decode size
  | table fields => decodeTable (decodeFields fields)

def decodeFields : TableShape ArgType → Decoder Byte (List (LuaKey × LuaValue))
  | .nil => .give []
  | .value key type rest => (decodeEntry key type.decode).append (decodeFields rest)
  | .sub key fields rest =>
      (decodeEntry key ((decodeFields fields).mapped .table)).append (decodeFields rest)

end

/-- What the formats of an argument list read. -/
def decodeArgs : List ArgType → Decoder Byte (List LuaValue)
  | [] => .give []
  | type :: rest => (type.decode.mapped fun value => [value]).append (decodeArgs rest)

/-- The loop over the opcodes of some fields stores them and goes on with the rest. -/
def StoresFields (fields : TableShape ArgType) : Prop :=
  ∀ (more : List TableOpcode), more ≠ [] → ∀ (top : ℤ) (buf : Bytes) (start : ℕ),
    start ≤ buf.length → ∀ (acc : List (LuaKey × LuaValue)),
    (∀ key ∈ fields.keys, key ∉ acc.map Prod.fst) →
    ∀ (stack : List LuaValue) (out : Bytes) (calls : List (LuaValue × List LuaValue)),
    match decodeFields fields (buf.drop start) with
    | none =>
        Refuses (unpackOpcodes ((compileFields fields).fieldOpcodes ++ more) top buf buf.length
          start) ⟨.table acc :: stack, out, calls⟩
    | some (contents, consumed) => start + consumed ≤ buf.length ∧
        unpackOpcodes ((compileFields fields).fieldOpcodes ++ more) top buf buf.length start
            ⟨.table acc :: stack, out, calls⟩ =
          unpackOpcodes more top buf buf.length (start + consumed : ℕ)
            ⟨.table (acc ++ contents) :: stack, out, calls⟩

theorem storesFields_nil : StoresFields .nil := by
  intro more _ top buf start inside acc _ stack out calls
  refine ⟨inside, ?_⟩
  simp [compileFields, TableShape.fieldOpcodes]

theorem storesFields_value {key : LuaKey} {type : ArgType} {fields : TableShape ArgType}
    (distinct : key ∉ fields.keys) (decodes : Decodes type.compile.unpack type.decode)
    (stores : StoresFields fields) : StoresFields (.value key type fields) := by
  intro more final top buf start inside acc fresh stack out calls
  have notEmpty : ((compileFields fields).fieldOpcodes ++ more).isEmpty = false := by
    simp [final]
  have pushed := decodes (buf.drop start) ⟨key.toValue :: .table acc :: stack, out, calls⟩
  rw [← length_sub_start inside] at pushed
  have begin : unpackOpcodes ((compileFields (.value key type fields)).fieldOpcodes ++ more) top
      buf buf.length start ⟨.table acc :: stack, out, calls⟩ =
      (type.compile.unpack (buf.drop start) (buf.length - start) >>= fun curReaded =>
        afterUnpack top curReaded (-3) (unpackOpcodes ((compileFields fields).fieldOpcodes ++ more)
          top buf buf.length (start + curReaded)))
        ⟨key.toValue :: .table acc :: stack, out, calls⟩ := by
    simp only [compileFields, TableShape.fieldOpcodes, List.cons_append]
    rw [unpackOpcodes, notEmpty]
    rfl
  rw [decodeFields, decodeEntry_eq]
  rcases read : type.decode (buf.drop start) with _ | ⟨value, consumed⟩
  · rw [read] at pushed
    exact refuses_of_eq (refuses_afterUnpack pushed top _ _) begin rfl
  · rw [read] at pushed
    rcases pushed with ⟨positive, within, returned⟩
    rw [List.length_drop] at within
    have stored := rawset_fresh (fresh key (by simp [TableShape.keys])) value stack out calls
    have goesOn := begin.trans (Program.bind_of_ret returned)
    rw [afterUnpack, if_neg (by omega), Program.bind_of_ret stored, ← Nat.cast_add] at goesOn
    have later := stores more final top buf (start + consumed) (by omega) (acc ++ [(key, value)])
      (fresh_append distinct fun other member =>
        fresh other (by simp [TableShape.keys, member])) stack out calls
    simp only [Option.bind_some, List.drop_drop]
    rcases rest : decodeFields fields (buf.drop (start + consumed)) with _ | ⟨contents, more⟩
    · rw [rest] at later
      exact refuses_of_eq later goesOn rfl
    · rw [rest] at later
      refine ⟨by omega, goesOn.trans (later.2.trans ?_)⟩
      rw [List.append_assoc, Nat.add_assoc]
      rfl

theorem storesFields_sub {key : LuaKey} {inner fields : TableShape ArgType}
    (distinct : key ∉ fields.keys) (inside : StoresFields inner) (stores : StoresFields fields) :
    StoresFields (.sub key inner fields) := by
  intro more final top buf start within acc fresh stack out calls
  have notEmpty : ((compileFields fields).fieldOpcodes ++ more).isEmpty = false := by
    simp [final]
  have begin : unpackOpcodes ((compileFields (.sub key inner fields)).fieldOpcodes ++ more) top
      buf buf.length start ⟨.table acc :: stack, out, calls⟩ =
      unpackOpcodes ((compileFields inner).fieldOpcodes ++
        (.tbEnd :: ((compileFields fields).fieldOpcodes ++ more))) top buf buf.length start
        ⟨.table [] :: key.toValue :: .table acc :: stack, out, calls⟩ := by
    have notEmptyInside : ((compileFields inner).fieldOpcodes ++
        (.tbEnd :: ((compileFields fields).fieldOpcodes ++ more))).isEmpty = false := by
      simp
    simp only [compileFields, TableShape.fieldOpcodes, List.cons_append, List.append_assoc]
    rw [unpackOpcodes, notEmptyInside]
    rfl
  have nested := inside (.tbEnd :: ((compileFields fields).fieldOpcodes ++ more)) (by simp) top buf
    start within [] (by simp) (key.toValue :: .table acc :: stack) out calls
  rw [decodeFields, decodeEntry_eq, Decoder.mapped]
  rcases read : decodeFields inner (buf.drop start) with _ | ⟨contents, consumed⟩
  · rw [read] at nested
    exact refuses_of_eq nested begin rfl
  · rw [read] at nested
    rcases nested with ⟨bounded, stepped⟩
    have stored := rawset_fresh (fresh key (by simp [TableShape.keys])) (.table contents) stack
      out calls
    have goesOn := begin.trans stepped
    rw [unpackOpcodes, notEmpty] at goesOn
    simp only [Bool.false_eq_true, if_false, List.nil_append] at goesOn
    rw [Program.bind_of_ret stored] at goesOn
    have later := stores more final top buf (start + consumed) bounded
      (acc ++ [(key, .table contents)])
      (fresh_append distinct fun other member =>
        fresh other (by simp [TableShape.keys, member])) stack out calls
    simp only [Option.map_some, Option.bind_some, List.drop_drop]
    rcases rest : decodeFields fields (buf.drop (start + consumed)) with _ | ⟨others, more⟩
    · rw [rest] at later
      exact refuses_of_eq later goesOn rfl
    · rw [rest] at later
      refine ⟨by omega, goesOn.trans (later.2.trans ?_)⟩
      rw [List.append_assoc, Nat.add_assoc]
      rfl

theorem decodes_unpackTable {fields : TableShape ArgType} (stores : StoresFields fields) :
    Decodes (table fields).compile.unpack (table fields).decode := by
  intro buf state
  have begin : (table fields).compile.unpack buf buf.length state =
      unpackOpcodes ((compileFields fields).fieldOpcodes ++ [.tbEnd]) state.stack.length buf
        buf.length 0 ⟨.table [] :: state.stack, state.out, state.calls⟩ := by
    simp only [compile, TableShape.opcodes, unpack]
    rw [Program.bind_of_ret (Lua.gettop_apply _), Program.bind_of_ret (Lua.newtable_apply _)]
  have stored := stores [.tbEnd] (by simp) state.stack.length buf 0 (Nat.zero_le _) [] (by simp)
    state.stack state.out state.calls
  rw [List.drop_zero] at stored
  rw [decode, decodeTable]
  rcases read : decodeFields fields buf with _ | ⟨contents, consumed⟩
  · rw [read] at stored
    exact refuses_of_eq stored begin rfl
  · rw [read] at stored
    rcases stored with ⟨within, stepped⟩
    rw [Nat.zero_add] at within stepped
    have returned := begin.trans stepped
    by_cases nothing : consumed = 0
    · subst nothing
      exact ⟨_, returned, rfl⟩
    · simp only [Option.bind_some, if_neg nothing]
      exact ⟨by omega, within, returned⟩

mutual

/-- On every buffer a format pushes what its decoder reads, or refuses. -/
theorem decodes_unpack : (type : ArgType) → type.Balanced →
    Decodes type.compile.unpack type.decode
  | .number, _ => decodes_unpackNumber
  | .byte, _ => decodes_unpackFixed Nat.one_pos id
  | .word, _ => decodes_unpackFixed Nat.two_pos int16
  | .dword, _ => decodes_unpackFixed (by decide) int32
  | .string, _ => decodes_unpackString
  | .array element size, balanced =>
      decodes_unpackArray (decodes_unpack element balanced) size
  | .table fields, balanced => decodes_unpackTable (storesFields fields balanced)

theorem storesFields : (fields : TableShape ArgType) → FieldsBalanced fields → StoresFields fields
  | .nil, _ => storesFields_nil
  | .value _ type fields, balanced =>
      storesFields_value balanced.1 (decodes_unpack type balanced.2.1)
        (storesFields fields balanced.2.2)
  | .sub _ inner fields, balanced =>
      storesFields_sub balanced.1 (storesFields inner balanced.2.1)
        (storesFields fields balanced.2.2)

end

end ArgType

end SimpleModule
