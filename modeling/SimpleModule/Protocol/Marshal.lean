import SimpleModule.Protocol.Message

/-!
# Marshalling

`marshal` packs the arguments of a protocol one after the other into a buffer of 0x8000
bytes.  The arguments here are any values of the types of the protocol, and not only those
that are read back unchanged.

The main result about `pack` is that its check of the size is exact: a value that can be
packed has a size, which decides whether it is packed into a given buffer.  For `marshal`
the sizes of the arguments add up.
-/

namespace SimpleModule

open Octets Exits ArgType

/-! ## Exact sizes -/

/-- All that a program writes fits into the buffer. -/
def WritesWithin (program : LuaM ℤ) (state : LuaState) (bufLen : ℕ) : Prop :=
  ∃ front : Bytes, (program state).2.out = state.out ++ front ∧ front.length ≤ bufLen

namespace FcallArg

variable {numerals : Numerals}

/-- There is no buffer into which the value is packed. -/
def NeverPacks (numerals : Numerals) (codec : FcallArg) (value : LuaValue) : Prop :=
  ∀ (state final : LuaState) (dataIn : ℤ) (bufLen : ℕ) (result : ℤ),
    state.valueAt dataIn = value →
    codec.pack numerals dataIn bufLen state = (.ret result, final) → result = 0

/-- The value is packed as the same bytes into every buffer that can hold them and no other. -/
def PacksExactly (numerals : Numerals) (codec : FcallArg) (value : LuaValue) (bytes : Bytes) :
    Prop :=
  bytes ≠ [] ∧ ∀ (state : LuaState) (dataIn : ℤ) (bufLen : ℕ), state.valueAt dataIn = value →
    (bytes.length ≤ bufLen → ∃ stack, codec.pack numerals dataIn bufLen state =
      (.ret bytes.length, ⟨stack, state.out ++ bytes, state.calls⟩)) ∧
    (bufLen < bytes.length → ∃ final, codec.pack numerals dataIn bufLen state = (.ret 0, final))

theorem packsExactly_of_encoding {type : ArgType} {value : LuaValue} {bytes : Bytes}
    (encoded : type.encoding numerals value = .ok bytes) :
    PacksExactly numerals type.compile value bytes := by
  have nonempty := encoding_ne_nil type encoded
  refine ⟨nonempty, ?_⟩
  intro state dataIn bufLen given
  have writes := writes_pack numerals type dataIn bufLen state
  rw [given, encoded] at writes
  have packs := Writes.packs nonempty writes
  constructor
  · intro room
    have packed := packs.fits (by omega)
    rw [zero_add] at packed
    exact ⟨_, packed⟩
  · intro short
    exact packs.full (by omega)

theorem neverPacks_of_encoding {type : ArgType} {value : LuaValue} {reason : Unencodable}
    (failed : type.encoding numerals value = .error reason) (bounded : reason ≠ .overflow) :
    NeverPacks numerals type.compile value := by
  intro state final dataIn bufLen result given returns
  have writes := writes_pack numerals type dataIn bufLen state
  rw [given, failed] at writes
  by_contra accepted
  rcases writes.of_ret returns accepted (by simpa using bounded) with ⟨bytes, absurdity, -⟩
  cases absurdity

theorem PacksExactly.not_neverPacks {codec : FcallArg} {value : LuaValue} {bytes : Bytes}
    (packs : PacksExactly numerals codec value bytes) : ¬ NeverPacks numerals codec value := by
  intro never
  let state : LuaState := ⟨[value], [], []⟩
  have given : state.valueAt (-1) = value := LuaState.valueAt_neg_one value [] [] []
  rcases (packs.2 state (-1) bytes.length given).1 (le_refl _) with ⟨stack, packed⟩
  have zero := never _ _ _ _ _ given packed
  have positive := List.length_pos_iff.mpr packs.1
  omega

theorem PacksExactly.unique {codec : FcallArg} {value : LuaValue} {bytes others : Bytes}
    (packs : PacksExactly numerals codec value bytes)
    (packs' : PacksExactly numerals codec value others) : bytes = others := by
  let state : LuaState := ⟨[value], [], []⟩
  have given : state.valueAt (-1) = value := LuaState.valueAt_neg_one value [] [] []
  let bufLen := max bytes.length others.length
  rcases (packs.2 state (-1) bufLen given).1 (le_max_left _ _) with ⟨stack, packed⟩
  rcases (packs'.2 state (-1) bufLen given).1 (le_max_right _ _) with ⟨stack', packed'⟩
  rw [packed, Prod.mk.injEq, LuaState.mk.injEq] at packed'
  exact List.append_cancel_left packed'.2.2.1

theorem writesWithin_pack (type : ArgType) {value : LuaValue}
    (short : type.ShortStrings numerals value) {state : LuaState} {dataIn : ℤ} (bufLen : ℕ)
    (given : state.valueAt dataIn = value) :
    WritesWithin (type.compile.pack numerals dataIn bufLen) state bufLen := by
  have writes := writes_pack numerals type dataIn bufLen state
  rw [given] at writes
  have stays {final : LuaState} (inside : Inside state final 0 bufLen)
      (ended : (type.compile.pack numerals dataIn bufLen state).2 = final) :
      WritesWithin (type.compile.pack numerals dataIn bufLen) state bufLen := by
    rcases inside with ⟨front, out, within⟩
    have bound := within (by omega)
    exact ⟨front, by rw [ended, out], by omega⟩
  generalize encoded : type.encoding numerals value = encoding at writes
  cases writes with
  | @written bytes fits returns =>
      refine ⟨bytes, by rw [returns], ?_⟩
      have room := fits (encoding_ne_nil type encoded)
      omega
  | gaveUp _ inside returns => exact stays inside (by rw [returns])
  | raised inside returns => exact stays inside (by rw [returns])
  | overflow => exact absurd encoded (encoding_ne_overflow type short)

end FcallArg

/-! ## The arguments of a message -/

namespace LuaState

variable {state : LuaState} {dataIn index : ℤ}

/-- An assignment to one index of the stack leaves the others alone. -/
theorem valueAt_setValueAt (positive : 0 < dataIn) (inside : 0 ≤ state.slot dataIn)
    (other : 0 < index) (different : index ≠ dataIn) (value : LuaValue) :
    (state.setValueAt dataIn value).valueAt index = state.valueAt index := by
  have height : (state.setValueAt dataIn value).slot index = state.slot index := by
    simp [slot, setValueAt]
  simp only [valueAt, height]
  split_ifs with present
  · have apart : (state.slot dataIn).toNat ≠ (state.slot index).toNat := by
      simp only [slot, if_pos positive, if_pos other] at inside present ⊢
      omega
    simp [setValueAt, List.getD_eq_getElem?_getD, List.getElem?_set_ne apart]
  · rfl

theorem valueAt_packedStack (numerals : Numerals) (type : ArgType) (positive : 0 < dataIn)
    (other : 0 < index) (different : index ≠ dataIn) (out : Bytes)
    (calls : List (LuaValue × List LuaValue)) :
    LuaState.valueAt ⟨FcallArg.packedStack numerals type dataIn state, out, calls⟩ index =
      state.valueAt index := by
  have string : LuaState.valueAt ⟨FcallArg.stringStack numerals dataIn state, out, calls⟩ index =
      state.valueAt index := by
    unfold FcallArg.stringStack
    rcases given : state.valueAt dataIn with _ | truth | amount | text | ref | self | entries
    case number =>
      have inside : 0 ≤ state.slot dataIn := by
        by_contra outside
        simp [valueAt, outside] at given
      exact valueAt_setValueAt positive inside other different _
    all_goals rfl
  cases type with
  | string => exact string
  | number => rfl
  | byte => rfl
  | word => rfl
  | dword => rfl
  | array element size => rfl
  | table fields => rfl

end LuaState

namespace NetProtocol

variable {numerals : Numerals}

/-- What `marshal` writes behind the id. -/
def encodingArgs (numerals : Numerals) : List ArgType → List LuaValue → Encoding
  | type :: types, value :: values =>
      (type.encoding numerals value).append (encodingArgs numerals types values)
  | _, _ => .ok []

/-- How the loop of `marshal` ends: it writes all arguments if they fit, and gives up otherwise. -/
structure MarshalsArgs (program : LuaM ℤ) (state : LuaState) (usedLen : ℤ) (bufLen : ℕ)
    (encoding : Encoding) : Prop where
  written : ∀ bytes, encoding = .ok bytes → usedLen + bytes.length ≤ bufLen →
    ∃ stack, program state =
      (.ret (usedLen + bytes.length), ⟨stack, state.out ++ bytes, state.calls⟩)
  refused : (∀ bytes, encoding = .ok bytes → bufLen < usedLen + bytes.length) →
    ∃ final, Inside state final usedLen bufLen ∧ program state = (.ret (-1), final)

/-- An argument that is not packed ends the loop. -/
theorem marshalsArgs_gaveUp {program : LuaM ℤ} {state final : LuaState} {usedLen : ℤ}
    {bufLen : ℕ} {head tail : Encoding}
    (short : ∀ bytes, head = .ok bytes → (bufLen : ℤ) < usedLen + bytes.length)
    (inside : Inside state final usedLen bufLen) (returns : program state = (.ret (-1), final)) :
    MarshalsArgs program state usedLen bufLen (head.append tail) := by
  constructor
  · intro bytes joined room
    rcases Encoding.append_eq_ok.mp joined with ⟨front, back, here, -, rfl⟩
    have beyond := short front here
    rw [List.length_append, Nat.cast_add] at room
    omega
  · intro _
    exact ⟨final, inside, returns⟩

/-- The loop goes on behind an argument that is packed. -/
theorem marshalsArgs_behind {program rest : LuaM ℤ} {state : LuaState} {stack : List LuaValue}
    {usedLen : ℤ} {bufLen : ℕ} {front : Bytes} {tail : Encoding}
    (body : program state = rest ⟨stack, state.out ++ front, state.calls⟩)
    (room : usedLen + front.length ≤ bufLen)
    (marshals : MarshalsArgs rest ⟨stack, state.out ++ front, state.calls⟩
      (usedLen + front.length) bufLen tail) :
    MarshalsArgs program state usedLen bufLen (Encoding.append (.ok front) tail) := by
  constructor
  · intro bytes joined fits
    rcases Encoding.append_eq_ok.mp joined with ⟨first, back, here, later, rfl⟩
    cases here
    rw [List.length_append, Nat.cast_add, ← add_assoc] at fits ⊢
    rcases marshals.written back later fits with ⟨after, returns⟩
    exact ⟨after, by rw [body, returns, List.append_assoc]⟩
  · intro short
    have beyond (back : Bytes) (later : tail = .ok back) :
        (bufLen : ℤ) < usedLen + front.length + back.length := by
      have longer := short (front ++ back) (Encoding.append_eq_ok.mpr ⟨_, _, rfl, later, rfl⟩)
      rw [List.length_append, Nat.cast_add] at longer
      omega
    rcases marshals.refused beyond with ⟨final, ⟨back, out, within⟩, returns⟩
    refine ⟨final, ⟨front ++ back, by rw [out, List.append_assoc], ?_⟩, body.trans returns⟩
    intro _
    rw [List.length_append, Nat.cast_add, ← add_assoc]
    exact within room

theorem marshalsArgs_marshalArgs {types : List ArgType} {values : List LuaValue}
    (typed : List.Forall₂ (OfType numerals) types values)
    (short : List.Forall₂ (ShortStrings numerals) types values) {args : List ArgObj}
    (formats : args.map ArgObj.codec = types.map compile) {bufLen : ℕ} (bounded : bufLen < 2 ^ 31)
    {i : ℕ} {state : LuaState} (arguments : ArgumentsFrom state (i + 2) values) {usedLen : ℤ}
    (start : 0 ≤ usedLen) (within : usedLen ≤ bufLen) :
    MarshalsArgs (marshalArgs numerals bufLen args i usedLen) state usedLen bufLen
      (encodingArgs numerals types values) := by
  induction typed generalizing args i state usedLen with
  | nil =>
      rcases List.map_eq_nil_iff.mp formats with rfl
      constructor
      · rintro bytes ⟨⟩ _
        exact ⟨state.stack, by simp [marshalArgs]⟩
      · intro beyond
        have absurdity := beyond [] rfl
        simp at absurdity
        omega
  | @cons type value types values ofType _ ih =>
      cases short with
      | cons shortHead shortTail =>
      rcases List.map_eq_cons_iff.mp formats with ⟨arg, rest, rfl, compiled, formats⟩
      have given : state.valueAt (i + 2) = value := by
        have here := arguments 0 (by simp)
        simpa using here
      have remaining : int32 (bufLen - usedLen) = bufLen - usedLen := by
        apply int32_eq_self
        exact ⟨by omega, by omega⟩
      have writes := FcallArg.writes_pack numerals type (i + 2) (bufLen - usedLen) state
      rw [given] at writes
      have inBuffer {final : LuaState} (inside : Inside state final 0 (bufLen - usedLen)) :
          Inside state final usedLen bufLen := by
        rcases inside with ⟨front, out, bound⟩
        refine ⟨front, out, ?_⟩
        intro _
        have upper := bound (by omega)
        omega
      rw [encodingArgs]
      generalize encoded : type.encoding numerals value = encoding at writes
      cases writes with
      | @written bytes fits returns =>
          have nonempty := encoding_ne_nil type encoded
          have positive := List.length_pos_iff.mpr nonempty
          have room := fits nonempty
          have shifted : ArgumentsFrom ⟨FcallArg.packedStack numerals type (i + 2) state,
              state.out ++ bytes, state.calls⟩ (i + 1 + 2) values := by
            intro j inside
            have next := arguments (j + 1) (by simpa using inside)
            rw [List.getElem_cons_succ] at next
            rw [← next, LuaState.valueAt_packedStack numerals type (by omega) (by omega)
              (by omega)]
            congr 2
            omega
          apply marshalsArgs_behind ?_ (by omega)
            (ih shortTail formats shifted (show 0 ≤ usedLen + bytes.length by omega) (by omega))
          rw [zero_add] at returns
          rw [marshalArgs, compiled, remaining, Program.bind_of_ret returns, if_neg (by omega)]
      | gaveUp beyond inside returns =>
          refine marshalsArgs_gaveUp ?_ (inBuffer inside) ?_
          · intro bytes same
            have longer := (beyond bytes same).2
            omega
          · rw [marshalArgs, compiled, remaining, Program.bind_of_ret returns, if_pos rfl]
            rfl
      | raised _ _ => exact absurd encoded (encoding_ne_mistyped type ofType)
      | overflow => exact absurd encoded (encoding_ne_overflow type shortHead)

/-- The parts of a message are the encodings of its arguments. -/
def PartsOf (numerals : Numerals) (args : List ArgObj) (values : List LuaValue)
    (parts : List Bytes) : Prop :=
  List.Forall₂ (fun (argument : ArgObj × LuaValue) part =>
    FcallArg.PacksExactly numerals argument.1.codec argument.2 part) (args.zip values) parts

/-- Some argument of a message cannot be packed. -/
def SomeNeverPacks (numerals : Numerals) (args : List ArgObj) (values : List LuaValue) : Prop :=
  ∃ argument ∈ args.zip values, FcallArg.NeverPacks numerals argument.1.codec argument.2

theorem PartsOf.unique {args : List ArgObj} {values : List LuaValue} {parts others : List Bytes}
    (packed : PartsOf numerals args values parts) (packed' : PartsOf numerals args values others) :
    parts = others := by
  unfold PartsOf at packed packed'
  generalize args.zip values = pairs at packed packed'
  induction packed generalizing others with
  | nil =>
      cases packed'
      rfl
  | cons head _ ih =>
      cases packed' with
      | cons head' tail' => rw [head.unique head', ih tail']

theorem PartsOf.not_someNeverPacks {args : List ArgObj} {values : List LuaValue}
    {parts : List Bytes} (packed : PartsOf numerals args values parts) :
    ¬ SomeNeverPacks numerals args values := by
  unfold PartsOf at packed
  rintro ⟨argument, member, never⟩
  rcases List.mem_iff_getElem.mp member with ⟨i, inside, rfl⟩
  have here := List.forall₂_iff_get.mp packed
  exact (here.2 i inside (by rw [← here.1]; exact inside)).not_neverPacks never

theorem encodingArgs_cases {types : List ArgType} {values : List LuaValue}
    (typed : List.Forall₂ (OfType numerals) types values)
    (short : List.Forall₂ (ShortStrings numerals) types values) {args : List ArgObj}
    (formats : args.map ArgObj.codec = types.map compile) :
    (SomeNeverPacks numerals args values ∧
      ∀ bytes, encodingArgs numerals types values ≠ .ok bytes) ∨
    ∃ parts, PartsOf numerals args values parts ∧
      encodingArgs numerals types values = .ok parts.flatten := by
  induction typed generalizing args with
  | nil =>
      rcases List.map_eq_nil_iff.mp formats with rfl
      exact .inr ⟨[], .nil, rfl⟩
  | @cons type value types values ofType _ ih =>
      cases short with
      | cons shortHead shortTail =>
      rcases List.map_eq_cons_iff.mp formats with ⟨arg, rest, rfl, compiled, formats⟩
      rcases encoded : type.encoding numerals value with reason | bytes
      · have bounded : reason ≠ .overflow := by
          rintro rfl
          exact encoding_ne_overflow type shortHead encoded
        refine .inl ⟨⟨(arg, value), by simp, ?_⟩, ?_⟩
        · rw [compiled]
          exact FcallArg.neverPacks_of_encoding encoded bounded
        · intro bytes joined
          rcases Encoding.append_eq_ok.mp joined with ⟨front, back, here, -⟩
          rw [encoded] at here
          cases here
      · rcases ih shortTail formats with
          ⟨⟨argument, member, never⟩, failed⟩ | ⟨parts, packed, whole⟩
        · refine .inl ⟨⟨argument, List.mem_cons_of_mem _ member, never⟩, ?_⟩
          intro joined same
          rcases Encoding.append_eq_ok.mp same with ⟨front, back, -, later, -⟩
          exact failed back later
        · refine .inr ⟨bytes :: parts, .cons ?_ packed, ?_⟩
          · show FcallArg.PacksExactly numerals arg.codec value bytes
            rw [compiled]
            exact FcallArg.packsExactly_of_encoding encoded
          · rw [encodingArgs, encoded, whole]
            rfl

theorem length_idBytes_le (id : ℕ) : (idBytes id).length ≤ 3 := by
  unfold idBytes
  split_ifs
  · simp
  · simp

/-- What `marshal` does behind the id. -/
theorem marshal_eq {proto : NetProtocol} (numbered : proto.id ≠ 0) {bufLen : ℕ}
    (room : 3 ≤ bufLen) (state : LuaState) :
    proto.marshal numerals bufLen state =
      marshalArgs numerals bufLen proto.args 0 (idBytes proto.id).length
        ⟨state.stack, state.out ++ idBytes proto.id, state.calls⟩ := by
  rw [marshal, Program.bind_of_ret (Lua.assert_apply (by simpa using numbered) state),
    if_pos ((length_idBytes_le proto.id).trans room), Program.bind_of_ret (Lua.emit_apply _ _)]

/-- An object without an id is never marshalled. -/
theorem marshal_unnumbered {proto : NetProtocol} (unnumbered : proto.id = 0) (bufLen : ℕ)
    (state : LuaState) : proto.marshal numerals bufLen state = (.abort, state) := by
  simp [marshal, unnumbered, Lua.assert, Program.bind_apply]

section Marshal

variable {proto : NetProtocol} {types : List ArgType} {values : List LuaValue} {state : LuaState}

theorem marshalsArgs_marshal (formats : proto.args.map ArgObj.codec = types.map compile)
    (typed : List.Forall₂ (OfType numerals) types values)
    (short : List.Forall₂ (ShortStrings numerals) types values)
    (arguments : ArgumentsFrom state 2 values) :
    MarshalsArgs (marshalArgs numerals 0x8000 proto.args 0 (idBytes proto.id).length)
      ⟨state.stack, state.out ++ idBytes proto.id, state.calls⟩ (idBytes proto.id).length 0x8000
      (encodingArgs numerals types values) := by
  have kept : ArgumentsFrom ⟨state.stack, state.out ++ idBytes proto.id, state.calls⟩ (0 + 2)
      values := arguments
  have narrow := length_idBytes_le proto.id
  exact marshalsArgs_marshalArgs typed short formats (by omega) kept (by omega) (by omega)

theorem marshal_written (numbered : proto.id ≠ 0)
    (formats : proto.args.map ArgObj.codec = types.map compile)
    (typed : List.Forall₂ (OfType numerals) types values)
    (short : List.Forall₂ (ShortStrings numerals) types values)
    (arguments : ArgumentsFrom state 2 values) {bytes : Bytes}
    (whole : encodingArgs numerals types values = .ok bytes)
    (room : (idBytes proto.id).length + bytes.length ≤ 0x8000) :
    WritesWithin (proto.marshal numerals 0x8000) state 0x8000 ∧
      ∃ stack, proto.marshal numerals 0x8000 state =
        (.ret ((idBytes proto.id).length + bytes.length),
          ⟨stack, state.out ++ (idBytes proto.id ++ bytes), state.calls⟩) := by
  have loop := marshalsArgs_marshal formats typed short arguments
  rcases loop.written bytes whole (by omega) with ⟨stack, returns⟩
  rw [← marshal_eq numbered (by omega) state, List.append_assoc] at returns
  refine ⟨⟨idBytes proto.id ++ bytes, by rw [returns], ?_⟩, stack, returns⟩
  rw [List.length_append]
  exact room

theorem marshal_refused (numbered : proto.id ≠ 0)
    (formats : proto.args.map ArgObj.codec = types.map compile)
    (typed : List.Forall₂ (OfType numerals) types values)
    (short : List.Forall₂ (ShortStrings numerals) types values)
    (arguments : ArgumentsFrom state 2 values)
    (beyond : ∀ bytes, encodingArgs numerals types values = .ok bytes →
      0x8000 < (idBytes proto.id).length + bytes.length) :
    ∃ final, WritesWithin (proto.marshal numerals 0x8000) state 0x8000 ∧
      proto.marshal numerals 0x8000 state = (.ret (-1), final) := by
  have loop := marshalsArgs_marshal formats typed short arguments
  have narrow := length_idBytes_le proto.id
  rcases loop.refused (fun bytes same => by have long := beyond bytes same; omega) with
    ⟨final, ⟨back, out, within⟩, returns⟩
  rw [← marshal_eq numbered (by omega) state] at returns
  refine ⟨final, ⟨idBytes proto.id ++ back, ?_, ?_⟩, returns⟩
  · rw [returns, out, List.append_assoc]
  · rw [List.length_append]
    have bound := within (by omega)
    omega

end Marshal

/--
A value with short strings has a size that decides in which buffers it is packed, or it is
never packed; nothing is written behind the buffer.  So `marshal` stays inside its buffer
and returns minus one exactly if an argument cannot be packed or the message is too long.
-/
theorem pack_exact_marshal_iff (numerals : Numerals) :
    (∀ (type : ArgType) (value : LuaValue), type.ShortStrings numerals value →
      (FcallArg.NeverPacks numerals type.compile value ∨
        ∃ bytes, FcallArg.PacksExactly numerals type.compile value bytes) ∧
      ∀ (state : LuaState) (dataIn : ℤ) (bufLen : ℕ), state.valueAt dataIn = value →
        WritesWithin (type.compile.pack numerals dataIn bufLen) state bufLen) ∧
    ∀ (proto : NetProtocol) (types : List ArgType) (values : List LuaValue) (state : LuaState),
      proto.args.map ArgObj.codec = types.map compile →
      List.Forall₂ (OfType numerals) types values →
      List.Forall₂ (ShortStrings numerals) types values → ArgumentsFrom state 2 values →
      WritesWithin (proto.marshal numerals 0x8000) state 0x8000 ∧
      ((∃ final, proto.marshal numerals 0x8000 state = (.ret (-1), final)) ↔
        proto.id ≠ 0 ∧ (SomeNeverPacks numerals proto.args values ∨
          ∃ parts, PartsOf numerals proto.args values parts ∧
            0x8000 < (idBytes proto.id).length + parts.flatten.length)) := by
  refine ⟨?_, ?_⟩
  · intro type value short
    refine ⟨?_, ?_⟩
    · rcases encoded : type.encoding numerals value with reason | bytes
      · apply Or.inl
        apply FcallArg.neverPacks_of_encoding encoded
        rintro rfl
        exact encoding_ne_overflow type short encoded
      · exact .inr ⟨bytes, FcallArg.packsExactly_of_encoding encoded⟩
    · intro state dataIn bufLen given
      exact FcallArg.writesWithin_pack type short bufLen given
  · intro proto types values state formats typed short arguments
    by_cases unnumbered : proto.id = 0
    · have aborted : proto.marshal numerals 0x8000 state = (.abort, state) :=
        marshal_unnumbered unnumbered 0x8000 state
      refine ⟨⟨[], by rw [aborted, List.append_nil], by simp⟩, ?_⟩
      simp [aborted, unnumbered]
    · rcases encodingArgs_cases typed short formats with ⟨never, failed⟩ | ⟨parts, packed, whole⟩
      · rcases marshal_refused unnumbered formats typed short arguments
          (fun bytes same => absurd same (failed bytes)) with ⟨final, within, returns⟩
        exact ⟨within, fun _ => ⟨unnumbered, .inl never⟩, fun _ => ⟨final, returns⟩⟩
      · by_cases room : (idBytes proto.id).length + parts.flatten.length ≤ 0x8000
        · rcases marshal_written unnumbered formats typed short arguments whole room with
            ⟨within, stack, returns⟩
          refine ⟨within, ?_, ?_⟩
          · rintro ⟨final, refused⟩
            rw [returns, Prod.mk.injEq, Exit.ret.injEq] at refused
            omega
          · rintro ⟨-, never | ⟨others, packed', long⟩⟩
            · exact absurd never packed.not_someNeverPacks
            · rw [packed.unique packed'] at room
              omega
        · rcases marshal_refused unnumbered formats typed short arguments
            (fun bytes same => by
              rw [whole] at same
              cases same
              omega) with ⟨final, within, returns⟩
          exact ⟨within, fun _ => ⟨unnumbered, .inr ⟨parts, packed, not_le.mp room⟩⟩,
            fun _ => ⟨final, returns⟩⟩

/-- A table without leaves is never packed, so there is no message with such an argument. -/
theorem pack_exact_marshal_iff_noLeaves :
    (∃ bytes, FcallArg.PacksExactly noNumerals .byte (.number 300) bytes) ∧
    FcallArg.NeverPacks noNumerals (ArgType.table .nil).compile (.table []) ∧
    ∃ final, NetProtocol.marshal noNumerals
      ⟨1, 1, [⟨ofString "byte", [], .byte⟩, ⟨ofString "none", [], (ArgType.table .nil).compile⟩],
        ofString "c_a", none, false⟩ 0x8000 ⟨[.table [], .number 300, .number 7], [], []⟩ =
      (.ret (-1), final) := by
  rcases pack_exact_marshal_iff noNumerals with ⟨exact, marshals⟩
  have byte : FcallArg.PacksExactly noNumerals .byte (.number 300) [44] :=
    FcallArg.packsExactly_of_encoding (show ArgType.byte.encoding _ _ = _ from rfl)
  have bytes := (exact .byte (.number 300) trivial).1.resolve_left byte.not_neverPacks
  have never := (exact (.table .nil) (.table []) trivial).1.resolve_right (by
    rintro ⟨bytes, nonempty, packs⟩
    rcases (packs ⟨[.table []], [], []⟩ 1 bytes.length rfl).1 le_rfl with ⟨stack, packed⟩
    have nothing : (0 : ℤ) = bytes.length := Exit.ret.inj (congrArg Prod.fst packed)
    exact nonempty (List.eq_nil_of_length_eq_zero (by omega)))
  refine ⟨bytes, never, ?_⟩
  have arguments : ArgumentsFrom ⟨[.table [], .number 300, .number 7], [], []⟩ 2
      [.number 300, .table []] := by
    intro i inside
    simp only [List.length_cons, List.length_nil] at inside
    interval_cases i
    · rfl
    · rfl
  have typed : List.Forall₂ (OfType noNumerals) [.byte, .table .nil]
      [.number 300, .table []] := .cons ⟨300, rfl⟩ (.cons ⟨rfl, trivial⟩ .nil)
  have short : List.Forall₂ (ShortStrings noNumerals) [.byte, .table .nil]
      [.number 300, .table []] := .cons trivial (.cons trivial .nil)
  apply (marshals _ [.byte, .table .nil] _ _ rfl typed short arguments).2.mpr
  exact ⟨by decide, .inl ⟨_, List.mem_cons_of_mem _ List.mem_cons_self, never⟩⟩

end NetProtocol

end SimpleModule
