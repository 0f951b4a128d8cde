import SimpleModule.Protocol.Accepted
import SimpleModule.Protocol.CallerTable
import SimpleModule.Protocol.Locality

/-!
# Messages from an untrusted peer

`unpack_data` is run on every buffer that a peer sends.  It returns on all of them, and it
calls a function only after the whole of a message has been read: an id and one piece for
each argument of the protocol.  The result tells these cases apart.
-/

namespace SimpleModule

open Octets Exits Decoders ArgType

/-- One piece of the input and one value for each type. -/
def ReadsAll : List ArgType → List Bytes → List LuaValue → Prop
  | [], pieces, values => pieces = [] ∧ values = []
  | type :: types, pieces, values =>
      ∃ piece others value rest, pieces = piece :: others ∧ values = value :: rest ∧
        type.Reads piece value ∧ ReadsAll types others rest

theorem readsFrom_decodeArgs (types : List ArgType) :
    FcallArg.ReadsFrom (decodeArgs types) fun bytes values =>
      ∃ pieces : List Bytes, pieces.flatten = bytes ∧ ReadsAll types pieces values := by
  induction types with
  | nil =>
      intro buf values consumed read
      cases read
      exact ⟨Nat.zero_le _, [], rfl, rfl, rfl⟩
  | cons type types ih =>
      intro buf values consumed read
      rcases Decoder.append_eq_some.mp read with
        ⟨_, first, rest, later, here, behind, rfl, rfl⟩
      rcases Decoder.mapped_eq_some.mp here with ⟨value, decoded, rfl⟩
      rcases readsFrom_decode type _ _ _ decoded with ⟨inside, reading⟩
      rcases ih _ _ _ behind with ⟨within, pieces, flat, reads⟩
      rw [List.length_drop] at within
      refine ⟨by omega, buf.take first :: pieces, ?_, _, _, _, _, rfl, rfl, reading, reads⟩
      rw [List.flatten_cons, flat, List.take_add]

theorem ReadsAll.length_eq : {types : List ArgType} → {pieces : List Bytes} →
    {values : List LuaValue} → ReadsAll types pieces values → values.length = types.length
  | [], _, _, ⟨_, rfl⟩ => rfl
  | _ :: _, _, _, ⟨_, _, _, _, _, rfl, _, rest⟩ => by
      rw [List.length_cons, List.length_cons, rest.length_eq]

namespace NetProtocol

/--
A protocol with formats for balanced types.  What it is bound to is a function, which `load`
makes sure of.
-/
structure Sound (proto : NetProtocol) (types : List ArgType) : Prop where
  formats : proto.args.map ArgObj.codec = types.map compile
  balanced : ∀ type ∈ types, type.Balanced
  callable : ∀ handler, proto.unpackRef = some handler → handler.isFunction = true

theorem bindFunc_callable {setup : Setup} {proto bound : NetProtocol} {world after : World}
    (returns : bindFunc setup proto world = (.ret (some bound), after))
    (callable : ∀ handler, proto.unpackRef = some handler → handler.isFunction = true) :
    ∀ handler, bound.unpackRef = some handler → handler.isFunction = true := by
  rcases entry : makerFunc setup world proto.packFuncName with _ | handler
  · rcases present : defaultConstructor world with _ | constructor
    · simp only [bindFunc, Program.bind_apply, Program.get_apply, entry, present] at returns
      split_ifs at returns
      · cases returns
        exact callable
      · cases returns
    · simp only [bindFunc, Program.bind_apply, Program.get_apply, entry, present] at returns
      split_ifs at returns with isFunction
      · cases returns
        rintro handler ⟨⟩
        exact isFunction
      · cases returns
  · simp only [bindFunc, Program.bind_apply, Program.get_apply, entry] at returns
    cases returns
    rintro handler ⟨⟩
    exact isFunction_of_makerFunc entry

/-- A new object is bound to a function, if to anything. -/
theorem load_callable {setup : Setup} {file : DescFile} {proto new : NetProtocol}
    {world after : World} (fresh : proto.unpackRef = none)
    (returns : proto.load setup file world = (.ret (some new), after)) :
    ∀ handler, new.unpackRef = some handler → handler.isFunction = true := by
  rcases load_eq_some returns with ⟨_, _, _, bound, _, _, _, -, processed, -, rfl, -⟩
  unfold funcProc at processed
  split_ifs at processed
  · apply bindFunc_callable processed
    simp [withRole, fresh]
  · cases processed
    simp [withRole, fresh]

section Unpack

variable {args : List ArgObj} {types : List ArgType}

/-- The loop pushes what the formats of the arguments decode, or refuses an argument. -/
theorem unpackArgs_eq (top : ℤ) (buf : Bytes) (finish : ℤ → LuaM ℤ)
    (formats : args.map ArgObj.codec = types.map compile)
    (balanced : ∀ type ∈ types, type.Balanced) (start : ℕ) (inside : start ≤ buf.length)
    (state : LuaState) :
    match decodeArgs types (buf.drop start) with
    | none => ∃ final, unpackArgs top buf buf.length finish args start state =
        (.ret errorUnpackFormat, final) ∧ final.calls = state.calls
    | some (values, consumed) => types.length ≤ consumed ∧ start + consumed ≤ buf.length ∧
        unpackArgs top buf buf.length finish args start state =
          finish (start + consumed : ℕ) { state with stack := values.reverse ++ state.stack } := by
  induction types generalizing args start state with
  | nil =>
      rw [List.map_nil, List.map_eq_nil_iff] at formats
      subst formats
      exact ⟨le_rfl, inside, rfl⟩
  | cons type types ih =>
      cases args with
      | nil => cases formats
      | cons arg args =>
          rw [List.map_cons, List.map_cons, List.cons.injEq] at formats
          have pushed := decodes_unpack type (balanced type (by simp)) (buf.drop start) state
          rw [← FcallArg.length_sub_start inside] at pushed
          rw [unpackArgs, formats.1, Int.toNat_natCast]
          rcases read : type.decode (buf.drop start) with _ | ⟨value, consumed⟩
          · rw [read] at pushed
            rcases pushed with ⟨final, refused, same⟩
            simp only [decodeArgs, Decoder.append, Decoder.mapped, read, Option.map_none,
              Option.bind_none]
            rw [Program.bind_of_ret refused, if_pos rfl]
            exact ⟨_, rfl, same⟩
          · rw [read] at pushed
            rcases pushed with ⟨positive, within, returned⟩
            rw [List.length_drop] at within
            rw [Program.bind_of_ret returned, if_neg (by omega), ← Nat.cast_add]
            have later := ih formats.2 (fun other member => balanced other (by simp [member]))
              (start + consumed) (by omega) { state with stack := value :: state.stack }
            simp only [decodeArgs, Decoder.append, Decoder.mapped, read, Option.map_some,
              Option.bind_some, List.drop_drop]
            rcases rest : decodeArgs types (buf.drop (start + consumed)) with _ | ⟨values, more⟩
            · rw [rest] at later
              exact later
            · rw [rest] at later
              rcases later with ⟨enough, bounded, step⟩
              refine ⟨by rw [List.length_cons]; omega, by omega, ?_⟩
              rw [step, List.singleton_append, List.reverse_cons, List.append_assoc, add_assoc]
              rfl

/-- The whole loop. -/
theorem unpackArgs_zero (top : ℤ) (buf : Bytes) (finish : ℤ → LuaM ℤ)
    (formats : args.map ArgObj.codec = types.map compile)
    (balanced : ∀ type ∈ types, type.Balanced) (state : LuaState) :
    match decodeArgs types buf with
    | none => ∃ final, unpackArgs top buf buf.length finish args 0 state =
        (.ret errorUnpackFormat, final) ∧ final.calls = state.calls
    | some (values, consumed) => types.length ≤ consumed ∧ consumed ≤ buf.length ∧
        unpackArgs top buf buf.length finish args 0 state =
          finish consumed { state with stack := values.reverse ++ state.stack } := by
  have looped := unpackArgs_eq top buf finish formats balanced 0 (Nat.zero_le _) state
  rw [List.drop_zero] at looped
  rcases read : decodeArgs types buf with _ | ⟨values, consumed⟩
  · rw [read] at looped
    exact looped
  · rw [read] at looped
    simp only [Nat.zero_add] at looped
    exact looped

/-- Error values of script functions are strings or numbers. -/
def RaisesText (script : Lua.Script) : Prop :=
  ∀ calls error, script calls = some error →
    (∃ text, error = .string text) ∨ ∃ value, error = .number value

theorem callHandler_cases (numerals : Numerals) {script : Lua.Script} (raises : RaisesText script)
    (function : LuaValue) (arguments : List LuaValue) (readedLen : ℤ) (stack : List LuaValue)
    (out : Bytes) (calls : List (LuaValue × List LuaValue)) :
    ∃ result final, callHandler numerals script stack.length arguments.length readedLen
        ⟨arguments.reverse ++ function :: stack, out, calls⟩ = (.ret result, final) ∧
      final.calls = calls ++ [(function, arguments)] ∧
      (script final.calls = none ∧ result = readedLen ∨
        script final.calls ≠ none ∧ result = errorUnpackScript) := by
  have called := Lua.pcall_apply stack out calls script function arguments
  rcases outcome : script (calls ++ [(function, arguments)]) with _ | message
  · rw [outcome] at called
    rw [callHandler, Program.bind_of_ret called]
    exact ⟨readedLen, _, rfl, rfl, .inl ⟨outcome, rfl⟩⟩
  · rw [outcome] at called
    rw [callHandler, Program.bind_of_ret called]
    have raised : script (calls ++ [(function, arguments)]) ≠ none := by simp [outcome]
    rcases raises _ _ outcome with ⟨text, rfl⟩ | ⟨value, rfl⟩
    · exact ⟨errorUnpackScript, _, rfl, rfl, .inr ⟨raised, rfl⟩⟩
    · exact ⟨errorUnpackScript, _, rfl, rfl, .inr ⟨raised, rfl⟩⟩

theorem Sound.args_eq_nil {proto : NetProtocol} (sound : proto.Sound types) :
    proto.args = [] ↔ types = [] := by
  have same := congrArg List.length sound.formats
  rw [List.length_map, List.length_map] at same
  rw [← List.length_eq_zero_iff, ← List.length_eq_zero_iff, same]

/-- What is decoded for no arguments, and how much is read for some. -/
theorem decodeArgs_consumed {buf : Bytes} {values : List LuaValue} {consumed : ℕ}
    (decoded : decodeArgs types buf = some (values, consumed))
    (enough : types.length ≤ consumed) :
    (types = [] → values = []) ∧ (consumed = 0 ↔ types = []) := by
  have empty : types = [] → values = [] ∧ consumed = 0 := by
    rintro rfl
    cases decoded
    exact ⟨rfl, rfl⟩
  refine ⟨fun none => (empty none).1, ?_, fun none => (empty none).2⟩
  rintro rfl
  exact List.eq_nil_of_length_eq_zero (Nat.le_zero.mp enough)

/-- There are as many values as arguments. -/
theorem Sound.length_args {proto : NetProtocol} {buf : Bytes} {values : List LuaValue}
    {consumed : ℕ} (sound : proto.Sound types)
    (read : decodeArgs types buf = some (values, consumed)) (ext : ℤ) :
    proto.args.length + 1 = (LuaValue.number ext :: values).length := by
  have same := congrArg List.length sound.formats
  rw [List.length_map, List.length_map] at same
  rcases readsFrom_decodeArgs types _ _ _ read with ⟨-, pieces, -, reads⟩
  rw [List.length_cons, reads.length_eq, same]

/-- The stack at the call: the function, the default argument and the values. -/
theorem pushed_arguments (handler first : LuaValue) (values stack : List LuaValue) :
    values.reverse ++ first :: handler :: stack =
      (first :: values).reverse ++ handler :: stack := by
  simp

/-- `unpack` calls the bound function with what the formats of the arguments decode. -/
theorem unpack_eq (numerals : Numerals) {script : Lua.Script} (raises : RaisesText script)
    {proto : NetProtocol} {handler : LuaValue} (sound : proto.Sound types)
    (bound : proto.unpackRef = some handler) (buf : Bytes) (ext : ℤ) (state : LuaState) :
    match decodeArgs types buf with
    | none => ∃ final, proto.unpack numerals script buf buf.length ext state =
        (.ret errorUnpackFormat, final) ∧ final.calls = state.calls
    | some (values, consumed) => types.length ≤ consumed ∧ consumed ≤ buf.length ∧
        ∃ result final, proto.unpack numerals script buf buf.length ext state =
            (.ret result, final) ∧
          final.calls = state.calls ++ [(handler, .number ext :: values)] ∧
          (script final.calls = none ∧ result = consumed ∨
            script final.calls ≠ none ∧ result = errorUnpackScript) := by
  rw [unpack, Program.bind_of_ret (Lua.gettop_apply state), bound]
  simp only
  rw [Program.bind_of_ret (Lua.push_apply _ _),
    Program.bind_of_ret (Lua.assert_apply (sound.callable handler bound) _),
    Program.bind_of_ret (Lua.push_apply _ _)]
  have looped := unpackArgs_zero state.stack.length buf
    (callHandler numerals script state.stack.length (proto.args.length + 1)) sound.formats
    sound.balanced ⟨.number ext :: handler :: state.stack, state.out, state.calls⟩
  rcases read : decodeArgs types buf with _ | ⟨values, consumed⟩
  · rw [read] at looped
    exact looped
  · rw [read] at looped
    rcases looped with ⟨enough, within, step⟩
    refine ⟨enough, within, ?_⟩
    rcases callHandler_cases numerals raises handler (.number ext :: values) consumed state.stack
      state.out state.calls with ⟨result, final, ended, recorded, outcome⟩
    refine ⟨result, final, ?_, recorded, outcome⟩
    refine step.trans ?_
    rw [sound.length_args read ext, pushed_arguments]
    exact ended

/-- `unpack` refuses, or reads all arguments and calls the bound function with them. -/
theorem unpack_cases (numerals : Numerals) {script : Lua.Script} (raises : RaisesText script)
    {proto : NetProtocol} (sound : proto.Sound types) (buf : Bytes) (ext : ℤ)
    (state : LuaState) :
    (∃ final, proto.unpack numerals script buf buf.length ext state =
        (.ret errorUnpackFormat, final) ∧ final.calls = state.calls) ∨
      ∃ (handler : LuaValue) (pieces : List Bytes) (values : List LuaValue) (consumed : ℕ)
        (result : ℤ) (final : LuaState), proto.unpackRef = some handler ∧
        consumed ≤ buf.length ∧ pieces.flatten = buf.take consumed ∧
        ReadsAll types pieces values ∧ types.length ≤ consumed ∧
        proto.unpack numerals script buf buf.length ext state = (.ret result, final) ∧
        final.calls = state.calls ++ [(handler, .number ext :: values)] ∧
        (script final.calls = none ∧ result = consumed ∨
          script final.calls ≠ none ∧ result = errorUnpackScript) := by
  rcases bound : proto.unpackRef with _ | handler
  · rw [unpack, Program.bind_of_ret (Lua.gettop_apply state), bound]
    exact .inl ⟨state, rfl, rfl⟩
  · have unpacks := unpack_eq numerals raises sound bound buf ext state
    rcases read : decodeArgs types buf with _ | ⟨values, consumed⟩
    · rw [read] at unpacks
      exact .inl unpacks
    · rw [read] at unpacks
      rcases unpacks with ⟨enough, within, result, final, ended, recorded, outcome⟩
      rcases readsFrom_decodeArgs types _ _ _ read with ⟨-, pieces, flat, reads⟩
      exact .inr ⟨handler, pieces, values, consumed, result, final, rfl, within, flat, reads,
        enough, ended, recorded, outcome⟩

end Unpack

end NetProtocol

namespace ProtoManager

open NetProtocol

/-! ## The functions of registered protocols -/

section Callable

variable {setup : Setup} {world after : World}

theorem loadNew_callable {id : ℕ} {file : DescFile} {install : NetProtocol → World → World}
    (returns : loadNew setup id file install world = (.ret true, after)) :
    ∃ new stored, after = install new stored ∧ stored.protos = world.protos ∧
      ∀ handler, new.unpackRef = some handler → handler.isFunction = true := by
  rcases Program.bind_eq_ret_iff.mp returns with ⟨proto, started, created, returns⟩
  cases created
  rcases Program.bind_eq_ret_iff.mp returns with ⟨loaded, stored, loads, returns⟩
  cases loaded with
  | none => cases returns
  | some new =>
      have callable := load_callable rfl loads
      rcases load_ret loads with ⟨_, _, _, registry, rfl⟩
      cases returns
      exact ⟨new, _, rfl, (protos_functionStored setup new _).1, callable⟩

/-- Every function that a registered protocol is bound to is one. -/
def Callable (world : World) : Prop :=
  ∀ proto ∈ world.protos, ∀ handler, proto.unpackRef = some handler → handler.isFunction = true

theorem callStep_callable {call : Call} (callable : Callable world)
    (stepped : callStep setup world call = some after) : Callable after := by
  have returns := callStep_eq_some stepped
  cases call with
  | add file =>
      simp only [Call.program, addProtocol, Program.bind_apply, Program.get_apply] at returns
      split_ifs at returns
      · rcases loadNew_callable returns with ⟨new, stored, rfl, same, fresh⟩
        intro proto member
        rw [List.mem_append, List.mem_singleton, same] at member
        rcases member with old | rfl
        · exact callable proto old
        · exact fresh
      · cases returns
  | update idArg file =>
      simp only [Call.program, updateProtocol] at returns
      split_ifs at returns
      · simp only [Program.bind_apply, Program.get_apply] at returns
        split_ifs at returns
        · rcases loadNew_callable returns with ⟨new, stored, rfl, same, fresh⟩
          intro proto member
          rcases List.mem_or_eq_of_mem_set member with old | rfl
          · rw [same] at old
            exact callable proto old
          · exact fresh
        · cases returns
      · cases returns

theorem callable_of_run (args : List ArgObj) (globals : List (LuaKey × LuaValue))
    {calls : List Call}
    (succeeds : Runs.run (callStep setup) (.init args globals) calls = some world) :
    Callable world := by
  have initial : Callable (.init args globals) := by
    intro proto member
    rw [World.init, List.mem_singleton] at member
    subst member
    simp
  apply (Runs.statesMeet_of_stepsMeet _ initial (Runs.stepsMeet_of_run succeeds)).last succeeds
  intro state call next callable _ stepped
  exact callStep_callable callable stepped

end Callable

/-! ## The manager -/

theorem wireId_le {buf : Bytes} {id header : ℕ} (read : wireId buf = some (id, header)) :
    0 < header ∧ header ≤ buf.length := by
  unfold wireId at read
  split_ifs at read with empty short cut
  · cases read
    omega
  · cases read
    omega

/--
Every buffer is handled: no function is called and the result is zero or minus one, or the
buffer starts with a message, the function of its protocol is called with the arguments of
the message, and the result is the length of the message unless the function has failed.
-/
theorem unpackData_sound (numerals : Numerals) {script : Lua.Script} (raises : RaisesText script)
    {protos : List NetProtocol} (sound : ∀ proto ∈ protos, ∃ types, proto.Sound types)
    (buf : Bytes) (ext : ℤ) (state : LuaState) :
    ∃ result after, unpackData numerals script protos buf buf.length ext state =
        (.ret result, after) ∧
      (after.calls = state.calls ∧ result ≤ 0 ∧ result ≠ errorUnpackScript ∨
        ∃ (id : ℕ) (proto : NetProtocol) (handler : LuaValue) (types : List ArgType)
          (front : Bytes) (pieces : List Bytes) (rest : Bytes) (values : List LuaValue),
          buf = front ++ pieces.flatten ++ rest ∧ wireId buf = some (id, front.length) ∧
          protos[id]? = some proto ∧ proto.unpackRef = some handler ∧ proto.Sound types ∧
          ReadsAll types pieces values ∧
          after.calls = state.calls ++ [(handler, .number ext :: values)] ∧
          (script after.calls = none ∧ 0 < result ∧ result ≤ buf.length ∧
              result = (front ++ pieces.flatten).length ∨
            script after.calls ≠ none ∧ result = errorUnpackScript)) := by
  rw [unpackData_eq]
  rcases read : wireId buf with _ | ⟨id, header⟩
  · exact ⟨0, state, rfl, .inl ⟨rfl, le_rfl, by decide⟩⟩
  · rcases wireId_le read with ⟨positive, within⟩
    simp only [dispatch]
    rcases found : protos[id]? with _ | proto
    · exact ⟨errorUnpackFormat, state, rfl, .inl ⟨rfl, by decide, by decide⟩⟩
    · rcases sound proto (List.mem_of_getElem? found) with ⟨types, typed⟩
      have measured : (buf.length : ℤ) - header = (buf.drop header).length := by
        rw [List.length_drop]
        omega
      simp only [Int.toNat_natCast]
      rw [measured]
      rcases unpack_cases numerals raises typed (buf.drop header) ext state with
        ⟨final, refused, same⟩ |
        ⟨handler, pieces, values, consumed, result, final, bound, inside, flat, reads, enough,
          returned, recorded, outcome⟩
      · rw [Program.bind_of_ret refused]
        exact ⟨errorUnpackFormat, final, rfl, .inl ⟨same, by decide, by decide⟩⟩
      · rw [List.length_drop] at inside
        have split : buf = buf.take header ++ pieces.flatten ++ buf.drop (header + consumed) := by
          rw [flat, ← List.take_add, List.take_append_drop]
        have front : (buf.take header).length = header := List.length_take_of_le within
        have length : pieces.flatten.length = consumed := by
          rw [flat, List.length_take, List.length_drop]
          omega
        have sameCount := congrArg List.length typed.formats
        rw [List.length_map, List.length_map] at sameCount
        rw [Program.bind_of_ret returned]
        rcases outcome with ⟨quiet, rfl⟩ | ⟨raised, rfl⟩
        · have finished : ¬((consumed : ℤ) = 0 ∧ proto.args.length > 0) := by omega
          rw [if_neg (by omega), if_neg finished]
          refine ⟨header + consumed, final, rfl, .inr ⟨id, proto, handler, types, _, pieces, _,
            values, split, by rw [front], found, bound, typed, reads, recorded,
            .inl ⟨quiet, by omega, by omega, ?_⟩⟩⟩
          rw [List.length_append, front, length, Nat.cast_add]
        · rw [if_pos (by decide)]
          exact ⟨errorUnpackScript, final, rfl, .inr ⟨id, proto, handler, types, _, pieces, _,
            values, split, by rw [front], found, bound, typed, reads, recorded,
            .inr ⟨raised, rfl⟩⟩⟩

theorem unpackData_sound_numberProtos :
    ∃ result after, unpackData noNumerals (fun _ => none) numberProtos [1, 2, 7, 99]
        (([1, 2, 7, 99] : Bytes).length : ℕ) 0 ⟨[], [], []⟩ = (.ret result, after) ∧
      (after.calls = [] ∧ result ≤ 0 ∨
        ∃ handler values, after.calls = [(handler, .number (0 : ℤ) :: values)] ∧ 0 < result ∧
          result ≤ 4) := by
  have sound : ∀ proto ∈ numberProtos, ∃ types, proto.Sound types := by
    intro proto member
    simp only [numberProtos, List.mem_cons, List.not_mem_nil, or_false] at member
    rcases member with rfl | rfl
    · exact ⟨[], rfl, by simp, by simp⟩
    · refine ⟨[.number], rfl, by simp [ArgType.Balanced], ?_⟩
      rintro handler ⟨⟩
      rfl
  have raises : RaisesText fun _ => none := by
    intro calls error raised
    cases raised
  rcases unpackData_sound noNumerals raises sound [1, 2, 7, 99] 0 ⟨[], [], []⟩ with
    ⟨result, after, returned, outcome⟩
  refine ⟨result, after, returned, ?_⟩
  rcases outcome with ⟨quiet, notPositive, -⟩ |
    ⟨_, _, handler, _, _, _, _, values, -, -, -, -, -, -, called, ended⟩
  · exact .inl ⟨quiet, notPositive⟩
  · rcases ended with ⟨-, positive, within, -⟩ | ⟨raised, -⟩
    · exact .inr ⟨handler, values, called, positive, within⟩
    · exact absurd rfl raised

/-! ## Error codes -/

/-- A length, or one of the error codes. -/
def Signals (result : ℤ) : Prop :=
  0 < result ∨ result = errorUnpackFormat ∨ result = errorUnpackScript

/-- Whatever the formats are, the loop refuses an argument or goes on behind the last one. -/
theorem unpackArgs_ret {top : ℤ} {buf : Bytes} {finish : ℤ → LuaM ℤ} {args : List ArgObj}
    {start : ℕ} (inside : start ≤ buf.length) {state final : LuaState} {result : ℤ}
    (returns : unpackArgs top buf buf.length finish args start state = (.ret result, final)) :
    result = errorUnpackFormat ∨
      ∃ (readedLen : ℕ) (between : LuaState), finish readedLen between = (.ret result, final) := by
  induction args generalizing start state with
  | nil => exact .inr ⟨start, state, returns⟩
  | cons arg args ih =>
      rw [unpackArgs, Int.toNat_natCast, ← Nat.cast_sub inside, ← List.length_drop] at returns
      rcases Program.bind_eq_ret_iff.mp returns with ⟨curReaded, between, read, later⟩
      split_ifs at later with refused
      · cases later
        exact .inl rfl
      · rcases FcallArg.isLocal_unpack arg.codec (buf.drop start) state between curReaded
          (Nat.zero_le _) read refused with ⟨reached, rfl, -, within, -⟩
        rw [List.length_drop] at within
        rw [← Nat.cast_add] at later
        exact ih (by omega) later

theorem callHandler_ret {numerals : Numerals} {script : Lua.Script} {top : ℤ} {count : ℕ}
    {readedLen result : ℤ} {state final : LuaState}
    (returns : callHandler numerals script top count readedLen state = (.ret result, final)) :
    result = readedLen ∨ result = errorUnpackScript := by
  rcases Program.bind_eq_ret_iff.mp returns with ⟨raised, between, -, later⟩
  cases raised with
  | true =>
      rcases Program.bind_eq_ret_iff.mp later with ⟨text, after, -, ended⟩
      cases ended
      exact .inr rfl
  | false =>
      cases later
      exact .inl rfl

theorem unpack_ret {numerals : Numerals} {script : Lua.Script} {proto : NetProtocol} {buf : Bytes}
    {ext result : ℤ} {state final : LuaState}
    (returns : proto.unpack numerals script buf buf.length ext state = (.ret result, final)) :
    0 ≤ result ∨ result = errorUnpackFormat ∨ result = errorUnpackScript := by
  rw [unpack, Program.bind_of_ret (Lua.gettop_apply state)] at returns
  rcases bound : proto.unpackRef with _ | handler
  · rw [bound] at returns
    cases returns
    exact .inr (.inl rfl)
  · simp only [bound] at returns
    rw [Program.bind_of_ret (Lua.push_apply _ _)] at returns
    rcases Program.bind_eq_ret_iff.mp returns with ⟨_, between, -, later⟩
    rw [Program.bind_of_ret (Lua.push_apply _ _)] at later
    rcases unpackArgs_ret (Nat.zero_le _) later with refused | ⟨readedLen, after, called⟩
    · exact .inr (.inl refused)
    · rcases callHandler_ret called with rfl | raised
      · exact .inl (by omega)
      · exact .inr (.inr raised)

theorem signals_dispatch {numerals : Numerals} {script : Lua.Script} {protos : List NetProtocol}
    {buf : Bytes} {ext result : ℤ} {header protoId : ℕ} (positive : 0 < header)
    (inside : header ≤ buf.length) {state final : LuaState}
    (returns : dispatch numerals script protos buf buf.length ext header protoId state =
      (.ret result, final)) : Signals result := by
  unfold dispatch at returns
  rcases found : protos[protoId]? with _ | proto
  · rw [found] at returns
    cases returns
    exact .inr (.inl rfl)
  · simp only [found] at returns
    rw [Int.toNat_natCast, ← Nat.cast_sub inside, ← List.length_drop] at returns
    rcases Program.bind_eq_ret_iff.mp returns with ⟨curReaded, between, read, later⟩
    have outcome := unpack_ret read
    split_ifs at later with negative nothing
    · cases later
      rcases outcome with zero | failed
      · omega
      · exact .inr failed
    · cases later
      exact .inr (.inl rfl)
    · cases later
      exact .inl (by omega)

/--
Failures are signalled by the error codes exactly if the id of the message is there: if the
buffer ends inside the id, the result is zero.  The call returns if all protocols are sound
and script functions raise strings or numbers.
-/
theorem unpackData_signals_iff (numerals : Numerals) (script : Lua.Script)
    (protos : List NetProtocol) (buf : Bytes) (ext : ℤ) (state : LuaState) :
    ((∀ result final, unpackData numerals script protos buf buf.length ext state =
        (.ret result, final) → Signals result) ↔ (wireId buf).isSome) ∧
      ((∀ proto ∈ protos, ∃ types, proto.Sound types) → RaisesText script →
        ∃ result final, unpackData numerals script protos buf buf.length ext state =
          (.ret result, final)) := by
  refine ⟨?_, ?_⟩
  · rw [unpackData_eq]
    rcases read : wireId buf with _ | ⟨protoId, header⟩
    · simp [Signals, errorUnpackFormat, errorUnpackScript]
    · rcases wireId_le read with ⟨positive, inside⟩
      refine ⟨fun _ => rfl, ?_⟩
      intro _ result final returns
      exact signals_dispatch positive inside returns
  · intro sound raises
    rcases unpackData_sound numerals raises sound buf ext state with ⟨result, final, returned, -⟩
    exact ⟨result, final, returned⟩

/-- A buffer that ends inside the id is taken for one of length zero. -/
theorem unpackData_truncated_id :
    unpackData noNumerals (fun _ => none) numberProtos [] 0 0 ⟨[], [], []⟩ =
        (.ret 0, ⟨[], [], []⟩) ∧
      unpackData noNumerals (fun _ => none) numberProtos [0, 1] 2 0 ⟨[], [], []⟩ =
        (.ret 0, ⟨[], [], []⟩) :=
  ⟨rfl, rfl⟩

end ProtoManager

end SimpleModule
