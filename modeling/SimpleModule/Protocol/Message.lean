import SimpleModule.Protocol.RoundTrip

/-!
# Messages

A message is the id of a protocol followed by its packed arguments.  `marshal` writes it
from the stack of the calling script function, and `unpack_data` selects the protocol of
the id, unpacks the arguments and calls the function bound to the protocol.

`Built` says that a format is one that the library constructs for a type; its table
formats come from descriptions with at most ten tables.  The main result is the round
trip of messages.
-/

namespace SimpleModule

open Octets Exits ArgType

/-- A `net_protocol` object; `self` is its address. -/
structure NetProtocol where
  self : ℕ
  id : ℕ
  args : List ArgObj
  packFuncName : Bytes
  unpackRef : Option LuaValue
  isMaker : Bool

/-- `XYNET_ERROR_UNPACK_FORMAT`. -/
def errorUnpackFormat : ℤ := -1

/-- `XYNET_ERROR_UNPACK_SCRIPT`. -/
def errorUnpackScript : ℤ := -2

namespace NetProtocol

/-! ## Packing -/

/-- The id as `marshal` writes it. -/
def idBytes (id : ℕ) : Bytes := if id < 256 then le 1 id else 0 :: le 2 id

/-- The loop of `marshal`; argument `i` is at the index `i + 2` of the stack. -/
def marshalArgs (numerals : Numerals) (bufLen : ℕ) :
    List ArgObj → (i : ℕ) → (usedLen : ℤ) → LuaM ℤ
  | [], _, usedLen => pure usedLen
  | arg :: rest, i, usedLen => do
      let curUsed ← arg.codec.pack numerals (i + 2) (int32 (bufLen - usedLen))
      if curUsed = 0 then return -1
      else marshalArgs numerals bufLen rest (i + 1) (usedLen + curUsed)

/-- `marshal`; the id is written without a check of the buffer. -/
def marshal (numerals : Numerals) (proto : NetProtocol) (bufLen : ℕ) : LuaM ℤ := do
  Lua.assert (proto.id ≠ 0)
  if (idBytes proto.id).length ≤ bufLen then do
    Lua.emit (idBytes proto.id)
    marshalArgs numerals bufLen proto.args 0 (idBytes proto.id).length
  else .exit .fault

/-! ## Unpacking -/

/-- The loop of `unpack` over the arguments, and what is done after it. -/
def unpackArgs (top : ℤ) (buf : Bytes) (bufLen : ℤ) (finish : ℤ → LuaM ℤ) :
    List ArgObj → (readedLen : ℤ) → LuaM ℤ
  | [], readedLen => finish readedLen
  | arg :: rest, readedLen => do
      let curReaded ← arg.codec.unpack (buf.drop readedLen.toNat) (bufLen - readedLen)
      if curReaded = 0 then do
        Lua.settop top
        return errorUnpackFormat
      else unpackArgs top buf bufLen finish rest (readedLen + curReaded)

/-- What `unpack` does after the call of the function, whose error must convert to a string. -/
def afterCall (numerals : Numerals) (top readedLen : ℤ) (status : Bool) : LuaM ℤ :=
  if status then do
    let _ ← Lua.checklstring numerals (-1)
    Lua.settop top
    return errorUnpackScript
  else do
    Lua.settop top
    return readedLen

/-- The call of the bound function. -/
def callHandler (numerals : Numerals) (script : Lua.Script) (top : ℤ) (count : ℕ)
    (readedLen : ℤ) : LuaM ℤ := do
  let status ← Lua.pcall script count
  afterCall numerals top readedLen status

def unpack (numerals : Numerals) (script : Lua.Script) (proto : NetProtocol) (buf : Bytes)
    (bufLen ext : ℤ) : LuaM ℤ := do
  let top ← Lua.gettop
  match proto.unpackRef with
  | none => return errorUnpackFormat
  | some handler => do
      Lua.push handler
      Lua.assert handler.isFunction
      Lua.push (.number ext)
      unpackArgs top buf bufLen (callHandler numerals script top (proto.args.length + 1))
        proto.args 0

end NetProtocol

namespace ProtoManager

/-- `unpack_data` after the id has been read. -/
def dispatch (numerals : Numerals) (script : Lua.Script) (protos : List NetProtocol)
    (buf : Bytes) (bufSize ext readedLen : ℤ) (protoId : ℕ) : LuaM ℤ :=
  match protos[protoId]? with
  | none => pure errorUnpackFormat
  | some proto => do
      let curReaded ← proto.unpack numerals script (buf.drop readedLen.toNat)
        (bufSize - readedLen) ext
      if curReaded < 0 then return curReaded
      else if curReaded = 0 ∧ proto.args.length > 0 then return errorUnpackFormat
      else return readedLen + curReaded

def unpackData (numerals : Numerals) (script : Lua.Script) (protos : List NetProtocol)
    (buf : Bytes) (bufSize ext : ℤ) : LuaM ℤ :=
  FcallArg.checkBuf 1 bufSize do
    let protoId := ofLe (← FcallArg.fetch buf 0 1)
    if protoId = 0 then
      FcallArg.checkBuf 3 bufSize do
        let protoId := ofLe (← FcallArg.fetch buf 1 2)
        dispatch numerals script protos buf bufSize ext 3 protoId
    else dispatch numerals script protos buf bufSize ext 1 protoId

/-- The id that `unpack_data` reads, and the number of bytes it takes. -/
def wireId (buf : Bytes) : Option (ℕ × ℕ) :=
  if buf.length < 1 then none
  else if ofLe (buf.take 1) ≠ 0 then some (ofLe (buf.take 1), 1)
  else if buf.length < 3 then none
  else some (ofLe ((buf.drop 1).take 2), 3)

theorem unpackData_eq (numerals : Numerals) (script : Lua.Script) (protos : List NetProtocol)
    (buf : Bytes) (ext : ℤ) (state : LuaState) :
    unpackData numerals script protos buf buf.length ext state =
      match wireId buf with
      | none => (.ret 0, state)
      | some (protoId, readedLen) =>
          dispatch numerals script protos buf buf.length ext readedLen protoId state := by
  by_cases empty : buf.length < 1
  · rw [wireId, if_pos empty]
    exact FcallArg.checkBuf_of_gt (by omega) _ state
  · have first := FcallArg.fetch_of_le (show 0 + 1 ≤ buf.length by omega) state
    rw [unpackData, FcallArg.checkBuf_of_le (by omega), Program.bind_of_ret first, wireId,
      if_neg empty, List.drop_zero]
    by_cases short : ofLe (buf.take 1) ≠ 0
    · rw [if_neg short, if_pos short]
      rfl
    · rw [if_pos (not_not.mp short), if_neg short]
      by_cases cut : buf.length < 3
      · rw [if_pos cut]
        exact FcallArg.checkBuf_of_gt (by omega) _ state
      · have second := FcallArg.fetch_of_le (show 1 + 2 ≤ buf.length by omega) state
        rw [FcallArg.checkBuf_of_le (by omega), Program.bind_of_ret second, if_neg cut]
        rfl

end ProtoManager

/-! ## The formats that the library builds -/

mutual

/-- A format object that is built for a type. -/
inductive Built (numerals : Numerals) : FcallArg → ArgType → Prop
  | number : Built numerals .number .number
  | byte : Built numerals .byte .byte
  | word : Built numerals .word .word
  | dword : Built numerals .dword .dword
  | string : Built numerals .string .string
  | array {codec : FcallArg} {type : ArgType} {size : ℕ} (element : Built numerals codec type)
      (small : size ≤ 255) : Built numerals (.array codec size) (.array type size)
  | table {args : List ArgObj} {fields : List (LuaKey × LuaValue)} {shape : TableShape FcallArg}
      {types : TableShape ArgType} {hashstr : Bytes} {final : Travel}
      (described : Describes numerals args fields shape) (typed : BuiltFields numerals shape types)
      (few : shape.tableCount ≤ maxTableDeep) (leaves : 1 ≤ shape.valueCount)
      (walked : travelTable numerals args fields ⟨0, [], hashstr⟩ = (.ret (), final)) :
      Built numerals (.table final.opcodes) (.table types)

/-- A description whose leaves are formats built for the leaves of a table type. -/
inductive BuiltFields (numerals : Numerals) : TableShape FcallArg → TableShape ArgType → Prop
  | nil : BuiltFields numerals .nil .nil
  | value {key : LuaKey} {codec : FcallArg} {type : ArgType} {shape : TableShape FcallArg}
      {types : TableShape ArgType} (leaf : Built numerals codec type)
      (rest : BuiltFields numerals shape types) :
      BuiltFields numerals (.value key codec shape) (.value key type types)
  | sub {key : LuaKey} {inner shape : TableShape FcallArg} {innerTypes types : TableShape ArgType}
      (fields : BuiltFields numerals inner innerTypes) (rest : BuiltFields numerals shape types) :
      BuiltFields numerals (.sub key inner shape) (.sub key innerTypes types)

end

section Building

variable {numerals : Numerals}

theorem BuiltFields.keys_eq {shape : TableShape FcallArg} {types : TableShape ArgType}
    (built : BuiltFields numerals shape types) : types.keys = shape.keys := by
  induction types generalizing shape with
  | nil =>
      cases built
      rfl
  | value key type rest ih =>
      cases built with
      | value leaf later => simp [TableShape.keys, ih later]
  | sub key inner rest _ ih =>
      cases built with
      | sub fields later => simp [TableShape.keys, ih later]

theorem BuiltFields.valueCount_eq {shape : TableShape FcallArg} {types : TableShape ArgType}
    (built : BuiltFields numerals shape types) : types.valueCount = shape.valueCount := by
  induction types generalizing shape with
  | nil =>
      cases built
      rfl
  | value key type rest ih =>
      cases built with
      | value leaf later => simp [TableShape.valueCount, ih later]
  | sub key inner rest ihInner ih =>
      cases built with
      | sub fields later => simp [TableShape.valueCount, ihInner fields, ih later]

theorem Describes.mem_keys {args : List ArgObj} {fields : List (LuaKey × LuaValue)}
    {shape : TableShape FcallArg} (described : Describes numerals args fields shape) :
    ∀ key ∈ shape.keys, key ∈ fields.map Prod.fst := by
  induction described with
  | nil => simp [TableShape.keys]
  | value _ _ _ _ _ ih =>
      intro other member
      rcases List.mem_cons.mp member with rfl | later
      · exact List.mem_cons_self
      · exact List.mem_cons_of_mem _ (ih other later)
  | sub _ _ _ _ _ ih =>
      intro other member
      rcases List.mem_cons.mp member with rfl | later
      · exact List.mem_cons_self
      · exact List.mem_cons_of_mem _ (ih other later)
  | empty _ ih => exact fun other member => List.mem_cons_of_mem _ (ih other member)

/-- The keys of each table are distinct. -/
def TableShape.Distinct {τ : Type} : TableShape τ → Prop
  | .nil => True
  | .value key _ rest => key ∉ rest.keys ∧ rest.Distinct
  | .sub key fields rest => key ∉ rest.keys ∧ fields.Distinct ∧ rest.Distinct

theorem Describes.distinct {args : List ArgObj} {fields : List (LuaKey × LuaValue)}
    {shape : TableShape FcallArg} (described : Describes numerals args fields shape) :
    shape.Distinct := by
  induction described with
  | nil => trivial
  | value named fresh leafNamed registered tail ih =>
      exact ⟨fun member => fresh (tail.mem_keys _ member), ih⟩
  | sub named fresh head tail ihHead ihTail =>
      exact ⟨fun member => fresh (tail.mem_keys _ member), ihHead, ihTail⟩
  | empty tail ih => exact ih

mutual

theorem Built.compile_eq : {codec : FcallArg} → {type : ArgType} → Built numerals codec type →
    codec = type.compile ∧ type.WellFormed
  | _, _, .number => ⟨rfl, trivial⟩
  | _, _, .byte => ⟨rfl, trivial⟩
  | _, _, .word => ⟨rfl, trivial⟩
  | _, _, .dword => ⟨rfl, trivial⟩
  | _, _, .string => ⟨rfl, trivial⟩
  | _, _, .array element small => by
      rcases element.compile_eq with ⟨rfl, wellFormed⟩
      exact ⟨rfl, wellFormed, small⟩
  | _, _, @Built.table _ _ _ _ _ hashstr _ described typed few leaves walked => by
      rcases typed.compile_eq described.distinct with ⟨rfl, wellFormed⟩
      rcases travelTable_opcodes described few hashstr with ⟨after, returned, emitted⟩
      rw [walked, Prod.mk.injEq] at returned
      rcases returned.2 with rfl
      refine ⟨by rw [compile, emitted], ?_⟩
      rw [WellFormed, typed.valueCount_eq]
      exact ⟨wellFormed, leaves⟩

theorem BuiltFields.compile_eq : {shape : TableShape FcallArg} → {types : TableShape ArgType} →
    BuiltFields numerals shape types → shape.Distinct →
    shape = compileFields types ∧ FieldsWellFormed types
  | _, _, .nil, _ => ⟨rfl, trivial⟩
  | _, _, .value leaf rest, ⟨fresh, distinct⟩ => by
      rcases leaf.compile_eq with ⟨compiled, leafWellFormed⟩
      rw [← rest.keys_eq] at fresh
      rcases rest.compile_eq distinct with ⟨rfl, wellFormed⟩
      exact ⟨by rw [compileFields, compiled], fresh, leafWellFormed, wellFormed⟩
  | _, _, .sub inner rest, ⟨fresh, distinctInside, distinct⟩ => by
      rcases inner.compile_eq distinctInside with ⟨rfl, innerWellFormed⟩
      rw [← rest.keys_eq] at fresh
      rcases rest.compile_eq distinct with ⟨rfl, wellFormed⟩
      exact ⟨by rw [compileFields], fresh, innerWellFormed, wellFormed⟩

end

end Building

/-! ## The round trip -/

/-- The packed arguments of a message. -/
def encodeAll (types : List ArgType) (values : List LuaValue) : Bytes :=
  (List.zipWith encode types values).flatten

@[simp]
theorem encodeAll_cons (type : ArgType) (types : List ArgType) (value : LuaValue)
    (values : List LuaValue) :
    encodeAll (type :: types) (value :: values) = type.encode value ++ encodeAll types values := by
  simp [encodeAll]

/-- The arguments that reach the receiver. -/
def restrictAll (types : List ArgType) (values : List LuaValue) : List LuaValue :=
  List.zipWith restrict types values

/-- The values are on the stack from an index on. -/
def ArgumentsFrom (state : LuaState) (first : ℕ) (values : List LuaValue) : Prop :=
  ∀ (i : ℕ) (inside : i < values.length), state.valueAt (first + i : ℕ) = values[i]

namespace NetProtocol

variable {numerals : Numerals} {args : List ArgObj} {types : List ArgType}
  {values : List LuaValue}

/-- A format list that is built for a list of types. -/
def BuiltArgs (numerals : Numerals) (args : List ArgObj) (types : List ArgType) : Prop :=
  List.Forall₂ (fun arg type => Built numerals arg.codec type) args types

/--
What `marshal` does with arguments after `usedLen` bytes: it writes them all or returns
minus one, and it writes them all if they fit into a buffer whose length is an `int`.
-/
structure Marshals (program : LuaM ℤ) (state : LuaState) (usedLen : ℤ) (bufLen : ℕ)
    (bytes : Bytes) : Prop where
  written_or_refused :
    program state = (.ret (usedLen + bytes.length),
      ⟨state.stack, state.out ++ bytes, state.calls⟩) ∨
    ∃ gaveUp, program state = (.ret (-1), gaveUp)
  written : usedLen + bytes.length ≤ bufLen → bufLen < 2 ^ 31 →
    program state = (.ret (usedLen + bytes.length), ⟨state.stack, state.out ++ bytes, state.calls⟩)

theorem Marshals.behind {program rest : LuaM ℤ} {state : LuaState} {usedLen : ℤ} {bufLen : ℕ}
    {front bytes : Bytes}
    (body : program state = rest ⟨state.stack, state.out ++ front, state.calls⟩)
    (marshals : Marshals rest ⟨state.stack, state.out ++ front, state.calls⟩
      (usedLen + front.length) bufLen bytes) :
    Marshals program state usedLen bufLen (front ++ bytes) := by
  rcases marshals with ⟨either, whole⟩
  simp only [List.append_assoc, add_assoc] at either whole
  constructor
  · rw [body, List.length_append, Nat.cast_add]
    exact either
  · rw [body, List.length_append, Nat.cast_add]
    exact whole

theorem marshals_marshalArgs (built : BuiltArgs numerals args types)
    (inDomain : List.Forall₂ InDomain types values) {bufLen i : ℕ} {state : LuaState}
    (arguments : ArgumentsFrom state (i + 2) values) {usedLen : ℤ} (start : 0 ≤ usedLen) :
    Marshals (marshalArgs numerals bufLen args i usedLen) state usedLen bufLen
      (encodeAll types values) := by
  induction built generalizing values i state usedLen with
  | nil =>
      cases inDomain
      constructor
      · simp [marshalArgs, encodeAll]
      · simp [marshalArgs, encodeAll]
  | @cons arg type args types builtHead builtTail ih =>
      cases inDomain with
      | @cons _ value _ values valid later =>
      rcases builtHead.compile_eq with ⟨compiled, wellFormed⟩
      have given : state.valueAt (i + 2) = value := by
        have here := arguments 0 (by simp)
        simpa using here
      have shifted : ArgumentsFrom ⟨state.stack, state.out ++ type.encode value, state.calls⟩
          (i + 1 + 2) values := by
        intro j inside
        have next := arguments (j + 1) (by simpa using inside)
        rw [List.getElem_cons_succ] at next
        rw [← next]
        show state.valueAt _ = _
        congr 2
        omega
      have positive := List.length_pos_iff.mpr (encode_ne_nil wellFormed valid)
      have head : Packs (type.compile.pack numerals (i + 2) (int32 (bufLen - usedLen))) state
          state.stack 0 (int32 (bufLen - usedLen)) (type.encode value) :=
        FcallArg.packs_pack numerals type wellFormed valid given
      have tail := ih later shifted (show 0 ≤ usedLen + (type.encode value).length by omega)
      have goesOn (packed : type.compile.pack numerals (i + 2) (int32 (bufLen - usedLen)) state =
          (.ret (0 + (type.encode value).length),
            ⟨state.stack, state.out ++ type.encode value, state.calls⟩)) :
          marshalArgs numerals bufLen (arg :: args) i usedLen state =
            marshalArgs numerals bufLen args (i + 1) (usedLen + (type.encode value).length)
              ⟨state.stack, state.out ++ type.encode value, state.calls⟩ := by
        rw [zero_add] at packed
        rw [marshalArgs, compiled, Program.bind_of_ret packed, if_neg (by omega)]
      rw [encodeAll_cons]
      constructor
      · rcases head.accepted_or_refused with packed | ⟨gaveUp, refused⟩
        · exact (tail.behind (goesOn packed)).written_or_refused
        · right
          rw [marshalArgs, compiled, Program.bind_of_ret refused, if_pos rfl]
          exact ⟨_, rfl⟩
      · intro room bounded
        have remaining : int32 (bufLen - usedLen) = bufLen - usedLen := by
          apply int32_eq_self
          exact ⟨by omega, by omega⟩
        have packed := head.fits (by rw [List.length_append] at room; omega)
        exact (tail.behind (goesOn packed)).written room bounded

theorem marshals_marshal {proto : NetProtocol} (numbered : proto.id ≠ 0) {bufLen : ℕ}
    (room : (idBytes proto.id).length ≤ bufLen) (built : BuiltArgs numerals proto.args types)
    (inDomain : List.Forall₂ InDomain types values) {state : LuaState}
    (arguments : ArgumentsFrom state 2 values) :
    Marshals (proto.marshal numerals bufLen) state 0 bufLen
      (idBytes proto.id ++ encodeAll types values) := by
  have kept : ArgumentsFrom
      ⟨state.stack, state.out ++ idBytes proto.id, state.calls⟩ (0 + 2) values := arguments
  have body : proto.marshal numerals bufLen state =
      marshalArgs numerals bufLen proto.args 0 (0 + (idBytes proto.id).length : ℤ)
        ⟨state.stack, state.out ++ idBytes proto.id, state.calls⟩ := by
    rw [marshal, Program.bind_of_ret (Lua.assert_apply (by simpa using numbered) state),
      if_pos room, Program.bind_of_ret (Lua.emit_apply _ _), zero_add]
  exact (marshals_marshalArgs built inDomain kept (by omega)).behind body

theorem marshal_accepted {proto : NetProtocol} (built : BuiltArgs numerals proto.args types)
    (inDomain : List.Forall₂ InDomain types values) {bufLen : ℕ} {state final : LuaState}
    (arguments : ArgumentsFrom state 2 values) {result : ℤ}
    (marshalled : proto.marshal numerals bufLen state = (.ret result, final))
    (accepted : 0 < result) :
    proto.id ≠ 0 ∧ result = (idBytes proto.id ++ encodeAll types values).length ∧
      final.out = state.out ++ (idBytes proto.id ++ encodeAll types values) := by
  by_cases numbered : proto.id ≠ 0
  · by_cases room : (idBytes proto.id).length ≤ bufLen
    · rcases (marshals_marshal numbered room built inDomain arguments).written_or_refused with
        written | ⟨gaveUp, refused⟩
      · rw [marshalled, Prod.mk.injEq, Exit.ret.injEq, zero_add] at written
        rcases written with ⟨measured, rfl⟩
        exact ⟨numbered, measured, rfl⟩
      · rw [marshalled, Prod.mk.injEq, Exit.ret.injEq] at refused
        omega
    · rw [marshal, Program.bind_of_ret (Lua.assert_apply (by simpa using numbered) state),
        if_neg room] at marshalled
      simp at marshalled
  · simp [marshal, Program.bind_apply, Lua.assert, numbered] at marshalled

theorem length_encodeAll (built : BuiltArgs numerals args types)
    (inDomain : List.Forall₂ InDomain types values) :
    0 < ((encodeAll types values).length : ℤ) ∨
      ((encodeAll types values).length : ℤ) = 0 ∧ args = [] := by
  cases built with
  | nil =>
      cases inDomain
      simp [encodeAll]
  | cons builtHead builtTail =>
      cases inDomain with
      | cons valid later =>
      rcases builtHead.compile_eq with ⟨_, wellFormed⟩
      have positive := List.length_pos_iff.mpr (encode_ne_nil wellFormed valid)
      rw [encodeAll_cons, List.length_append]
      left
      omega

/-- The packed arguments are read back onto the stack, the last one on the top. -/
theorem unpackArgs_encodeAll (built : BuiltArgs numerals args types)
    (inDomain : List.Forall₂ InDomain types values) (top : ℤ) (finish : ℤ → LuaM ℤ)
    (before suffix : Bytes) (stack : List LuaValue) (out : Bytes)
    (calls : List (LuaValue × List LuaValue)) (buf : Bytes)
    (input : buf = before ++ (encodeAll types values ++ suffix)) :
    unpackArgs top buf buf.length finish args before.length ⟨stack, out, calls⟩ =
      finish (before ++ encodeAll types values).length
        ⟨(restrictAll types values).reverse ++ stack, out, calls⟩ := by
  induction built generalizing values before stack with
  | nil =>
      cases inDomain
      simp [unpackArgs, encodeAll, restrictAll]
  | @cons arg type args types builtHead builtTail ih =>
      cases inDomain with
      | @cons _ value _ values valid later =>
      rcases builtHead.compile_eq with ⟨compiled, wellFormed⟩
      have positive := List.length_pos_iff.mpr (encode_ne_nil wellFormed valid)
      rw [encodeAll_cons, List.append_assoc] at input
      have remaining : buf.drop (before.length : ℤ).toNat =
          type.encode value ++ (encodeAll types values ++ suffix) := by
        simp [input]
      have measured : (buf.length : ℤ) - before.length =
          ((type.encode value ++ (encodeAll types values ++ suffix)).length : ℕ) := by
        simp [input]
      have read := FcallArg.unpacks_unpack type wellFormed valid (encodeAll types values ++ suffix)
        ⟨stack, out, calls⟩
      have next := ih later (before ++ type.encode value) (type.restrict value :: stack)
        (by rw [input, List.append_assoc])
      rw [List.length_append, Nat.cast_add] at next
      rw [unpackArgs, compiled, remaining, measured, Program.bind_of_ret read, if_neg (by omega)]
      refine next.trans ?_
      simp [restrictAll]

theorem callHandler_apply (numerals : Numerals) (script : Lua.Script) (function : LuaValue)
    (arguments : List LuaValue) (readedLen : ℤ) (stack : List LuaValue) (out : Bytes)
    (calls : List (LuaValue × List LuaValue)) :
    ∃ result final, callHandler numerals script stack.length arguments.length readedLen
        ⟨arguments.reverse ++ function :: stack, out, calls⟩ = (result, final) ∧
      final.calls = calls ++ [(function, arguments)] ∧
      (script final.calls = none → result = .ret readedLen ∧ final.stack = stack) := by
  have called := Lua.pcall_apply stack out calls script function arguments
  rcases outcome : script (calls ++ [(function, arguments)]) with _ | message
  · rw [outcome] at called
    rw [callHandler, Program.bind_of_ret called]
    refine ⟨.ret readedLen, ⟨stack, out, _⟩, ?_, rfl, fun _ => ⟨rfl, rfl⟩⟩
    simp [afterCall, Program.bind_apply]
  · rw [outcome] at called
    rw [callHandler, Program.bind_of_ret called]
    cases message with
    | string text => exact ⟨_, _, rfl, rfl, by simp [outcome]⟩
    | number value => exact ⟨_, _, rfl, rfl, by simp [LuaState.setValueAt, outcome]⟩
    | nil => exact ⟨_, _, rfl, rfl, by simp [outcome]⟩
    | boolean truth => exact ⟨_, _, rfl, rfl, by simp [outcome]⟩
    | function ref => exact ⟨_, _, rfl, rfl, by simp [outcome]⟩
    | packClosure self => exact ⟨_, _, rfl, rfl, by simp [outcome]⟩
    | table fields => exact ⟨_, _, rfl, rfl, by simp [outcome]⟩

/-- The bound function is called once, with the restricted arguments. -/
theorem unpack_encodeAll {receiver : NetProtocol} (built : BuiltArgs numerals receiver.args types)
    (inDomain : List.Forall₂ InDomain types values) {handler : LuaValue}
    (bound : receiver.unpackRef = some handler) (callable : handler.isFunction = true)
    (script : Lua.Script) (suffix : Bytes) (ext : ℤ) (state : LuaState) :
    ∃ result final, receiver.unpack numerals script (encodeAll types values ++ suffix)
        ((encodeAll types values ++ suffix).length : ℕ) ext state = (result, final) ∧
      final.calls = state.calls ++ [(handler, .number ext :: restrictAll types values)] ∧
      (script final.calls = none →
        result = .ret (encodeAll types values).length ∧ final.stack = state.stack) := by
  have count : receiver.args.length + 1 =
      (LuaValue.number ext :: restrictAll types values).length := by
    rw [List.length_cons, restrictAll, List.length_zipWith, ← inDomain.length_eq, built.length_eq,
      min_self]
  have onStack : (restrictAll types values).reverse ++ .number ext :: handler :: state.stack =
      (.number ext :: restrictAll types values).reverse ++ handler :: state.stack := by
    simp
  have read := unpackArgs_encodeAll built inDomain state.stack.length
    (callHandler numerals script state.stack.length (receiver.args.length + 1)) [] suffix
    (.number ext :: handler :: state.stack) state.out state.calls _ rfl
  rw [onStack, count, List.nil_append, List.nil_append] at read
  rcases callHandler_apply numerals script handler (.number ext :: restrictAll types values)
    (encodeAll types values).length state.stack state.out state.calls with
    ⟨result, final, ended, recorded, finished⟩
  refine ⟨result, final, ?_, recorded, finished⟩
  rw [unpack, Program.bind_of_ret (Lua.gettop_apply state), bound]
  simp only [count]
  rw [Program.bind_of_ret (Lua.push_apply _ _),
    Program.bind_of_ret (Lua.assert_apply callable _), Program.bind_of_ret (Lua.push_apply _ _)]
  exact read.trans ended

end NetProtocol

namespace ProtoManager

open NetProtocol

variable {numerals : Numerals} {types : List ArgType} {values : List LuaValue}

/-- The long form of an id has two bytes for it. -/
theorem wireId_idBytes {id : ℕ} (positive : 1 ≤ id) (rest : Bytes) :
    wireId (idBytes id ++ rest) =
      some (if id < 256 then id else id % 65536, (idBytes id).length) := by
  by_cases short : id < 256
  · have front : (le 1 id ++ rest).take 1 = le 1 id := List.take_left' (length_le 1 id)
    have read : ofLe (le 1 id) = id := ofLe_le (by omega)
    simp only [idBytes, if_pos short, wireId, front, read]
    rw [if_neg (by simp), if_pos (by omega), length_le]
  · have front : ((le 2 id ++ rest)).take 2 = le 2 id := List.take_left' (length_le 2 id)
    simp only [idBytes, if_neg short, wireId, List.cons_append, List.take_succ_cons, List.take_zero,
      List.drop_succ_cons, List.drop_zero, front]
    rw [if_neg (by simp), if_neg (by simp [ofLe]), if_neg (by simp), ofLe_le_mod]
    simp

/-- The id of a message is read back, and the rest is left to its protocol. -/
theorem unpackData_idBytes {id : ℕ} (positive : 1 ≤ id) (bounded : id ≤ 65535)
    (script : Lua.Script) (protos : List NetProtocol) (rest : Bytes) (ext : ℤ)
    (state : LuaState) :
    unpackData numerals script protos (idBytes id ++ rest) ((idBytes id ++ rest).length : ℕ) ext
        state =
      dispatch numerals script protos (idBytes id ++ rest) ((idBytes id ++ rest).length : ℕ) ext
        (idBytes id).length id state := by
  have read := wireId_idBytes positive rest
  have same : (if id < 256 then id else id % 65536) = id := by
    split_ifs
    · rfl
    · exact Nat.mod_eq_of_lt (by omega)
  rw [same] at read
  rw [unpackData_eq, read]

theorem dispatch_apply {protos : List NetProtocol} {id : ℕ} {receiver : NetProtocol}
    (registered : protos[id]? = some receiver) {script : Lua.Script} {before rest : Bytes} {ext : ℤ}
    {state after : LuaState} {ended : Exit ℤ}
    (unpacked : receiver.unpack numerals script rest (rest.length : ℕ) ext state = (ended, after)) :
    ∃ result, dispatch numerals script protos (before ++ rest) ((before ++ rest).length : ℕ) ext
        before.length id state = (result, after) ∧
      ∀ readedLen : ℤ, ended = .ret readedLen → 0 < readedLen ∨ readedLen = 0 ∧ receiver.args = [] →
        result = .ret (before.length + readedLen) := by
  have remaining : (before ++ rest).drop (before.length : ℤ).toNat = rest := by simp
  have measured : ((before ++ rest).length : ℤ) - before.length = (rest.length : ℕ) := by simp
  simp only [dispatch, registered, remaining, measured, Program.bind_apply, unpacked]
  cases ended with
  | ret value =>
      dsimp only
      split_ifs with negative empty
      · refine ⟨_, rfl, ?_⟩
        rintro _ ⟨⟩ sound
        omega
      · refine ⟨_, rfl, ?_⟩
        rintro _ ⟨⟩ (positive | ⟨_, none⟩)
        · omega
        · simp [none] at empty
      · refine ⟨_, rfl, ?_⟩
        rintro _ ⟨⟩ _
        rfl
  | raise => exact ⟨_, rfl, by simp⟩
  | abort => exact ⟨_, rfl, by simp⟩
  | fault => exact ⟨_, rfl, by simp⟩

/--
Messages make a round trip.  If `marshal` accepts arguments in the domains of their types,
`unpack_data` on the message and anything behind it calls the function bound to the same
id once, with the arguments restricted to what their types describe, and returns the
length of the message if the function raises no error.
-/
theorem unpackData_marshal {proto : NetProtocol} (bounded : proto.id ≤ 65535)
    (built : BuiltArgs numerals proto.args types) (inDomain : List.Forall₂ InDomain types values)
    {bufLen : ℕ} {state final : LuaState} (arguments : ArgumentsFrom state 2 values) {result : ℤ}
    (marshalled : proto.marshal numerals bufLen state = (.ret result, final))
    (accepted : 0 < result) {protos : List NetProtocol} {receiver : NetProtocol}
    (registered : protos[proto.id]? = some receiver) (sameArgs : receiver.args = proto.args)
    {handler : LuaValue} (bound : receiver.unpackRef = some handler)
    (callable : handler.isFunction = true) :
    ∃ bytes, final.out = state.out ++ bytes ∧ result = bytes.length ∧
      ∀ (script : Lua.Script) (suffix : Bytes) (ext : ℤ) (start : LuaState), ∃ ended after,
        unpackData numerals script protos (bytes ++ suffix) ((bytes ++ suffix).length : ℕ) ext
          start = (ended, after) ∧
        after.calls = start.calls ++ [(handler, .number ext :: restrictAll types values)] ∧
        (script after.calls = none → ended = .ret result ∧ after.stack = start.stack) := by
  rcases marshal_accepted built inDomain arguments marshalled accepted with
    ⟨numbered, measured, written⟩
  refine ⟨_, written, measured, ?_⟩
  intro script suffix ext start
  rcases unpack_encodeAll (sameArgs ▸ built) inDomain bound callable script suffix ext start with
    ⟨ended, after, unpacked, recorded, finished⟩
  rcases dispatch_apply registered unpacked with ⟨passed, dispatched, returned⟩
  rw [List.append_assoc, unpackData_idBytes (by omega) bounded]
  refine ⟨passed, after, dispatched, recorded, ?_⟩
  intro quiet
  rcases finished quiet with ⟨whole, restored⟩
  refine ⟨?_, restored⟩
  rw [returned _ whole (length_encodeAll (sameArgs ▸ built) inDomain), measured,
    List.length_append, Nat.cast_add]

/-- The protocol of the test program, with a number and a string. -/
def simpleProto (unpackRef : Option LuaValue) : NetProtocol :=
  ⟨1, 1, [⟨ofString "number", ofString "number", .number⟩,
    ⟨ofString "string", ofString "string", .string⟩], ofString "c_simple", unpackRef, false⟩

theorem unpackData_marshal_simple :
    ∃ after, unpackData noNumerals (fun _ => none)
        [⟨0, 0, [], [], none, false⟩, simpleProto (some (.function 5))]
        [1, 4, 0xc1, 7, 5, 0x7a, 0x65, 0x72, 0x6f, 99] 10 6666 ⟨[], [], []⟩ = (.ret 9, after) ∧
      after.calls = [(.function 5, [.number 6666, .number 1985, .string (ofString "zero")])] := by
  have built : BuiltArgs noNumerals (simpleProto none).args [.number, .string] :=
    .cons .number (.cons .string .nil)
  have inDomain : List.Forall₂ InDomain [.number, .string]
      [.number (1985 : ℤ), .string (ofString "zero")] :=
    .cons ⟨1985, rfl, by decide⟩ (.cons ⟨_, rfl, by decide⟩ .nil)
  have arguments : ArgumentsFrom
      ⟨[.string (ofString "zero"), .number (1985 : ℤ), .number 7], [], []⟩ 2
      [.number (1985 : ℤ), .string (ofString "zero")] := by
    intro i inside
    simp only [List.length_cons, List.length_nil] at inside
    interval_cases i
    · rfl
    · rfl
  have bytes : idBytes 1 ++ encodeAll [.number, .string]
      [.number (1985 : ℤ), .string (ofString "zero")] =
      [1, 4, 0xc1, 7, 5, 0x7a, 0x65, 0x72, 0x6f] := by
    decide +kernel
  have marshals : Marshals ((simpleProto none).marshal noNumerals 0x8000)
      ⟨[.string (ofString "zero"), .number (1985 : ℤ), .number 7], [], []⟩ 0 0x8000
      (idBytes 1 ++ encodeAll [.number, .string]
        [.number (1985 : ℤ), .string (ofString "zero")]) :=
    marshals_marshal (by decide) (by decide) built inDomain arguments
  rw [bytes] at marshals
  have marshalled := marshals.written (by decide) (by norm_num)
  have registered : [(⟨0, 0, [], [], none, false⟩ : NetProtocol),
      simpleProto (some (.function 5))][(simpleProto none).id]? =
      some (simpleProto (some (.function 5))) := rfl
  rcases unpackData_marshal (by decide) built inDomain arguments marshalled (by decide) registered
    rfl rfl rfl with ⟨sent, written, _, received⟩
  obtain rfl : sent = _ := written.symm
  rcases received (fun _ => none) [99] 6666 ⟨[], [], []⟩ with ⟨ended, after, read, called, quiet⟩
  rcases quiet rfl with ⟨rfl, _⟩
  exact ⟨after, read, called⟩

/-- A manager with one protocol, for a number. -/
def numberProtos : List NetProtocol :=
  [⟨0, 0, [], [], none, false⟩,
    ⟨1, 1, [⟨ofString "number", [], .number⟩], ofString "c_a", some (.function 0), true⟩]

end ProtoManager

end SimpleModule
