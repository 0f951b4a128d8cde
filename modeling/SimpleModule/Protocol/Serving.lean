import SimpleModule.Protocol.Engine

/-!
# Serving and reloading

`Hazard` says when a message makes `unpack_data` read an object that has been deleted: its
protocol has no arguments, and the function that it calls has replaced this protocol.  Nothing
else stops an engine whose actions are possible.  All other messages have the result that they
would have if their functions did nothing.
-/

namespace SimpleModule

open Octets Exits Runs ArgType

namespace Engine

open NetProtocol ProtoManager

/-! ## What a message does -/

section Messages

variable {setup : Setup} {script : Lua.Script} {engine : Engine}

/-- The state in which the function of a message begins. -/
def called (proto : NetProtocol) (calls : List (LuaValue × List LuaValue)) (engine : Engine) :
    Engine :=
  { countUnpack proto engine with lua := { engine.lua with calls := calls } }

/-- What `unpack` returns after the function has been called: the length, or that of an error. -/
def Concludes (script : Lua.Script) (calls : List (LuaValue × List LuaValue))
    (consumed : ℕ) (result : ℤ) : Prop :=
  script calls = none ∧ result = consumed ∨ script calls ≠ none ∧ result = errorUnpackScript

/-- After the function has come to its end, `unpack` restores the stack. -/
theorem leave_afterCall (numerals : Numerals) (raises : RaisesText script) {consumed : ℕ}
    {result : ℤ} (concludes : Concludes script engine.calls consumed result) :
    (inLua (Lua.leave script) >>= fun status =>
      inLua (afterCall numerals engine.lua.stack.length consumed status)) engine =
      (.ret result, engine) := by
  rcases engine with ⟨world, orphans, ⟨stack, out, calls⟩, sends, packs, unpacks, history⟩
  rcases outcome : script calls with _ | message
  · obtain rfl : result = consumed := by
      rcases concludes with ⟨-, ended⟩ | ⟨raised, -⟩
      · exact ended
      · exact absurd outcome raised
    have left : Lua.leave script ⟨stack, out, calls⟩ = (.ret false, ⟨stack, out, calls⟩) := by
      rw [Lua.leave, outcome]
    rw [Program.bind_of_ret (inLua_of_ret left)]
    apply inLua_of_ret
    simp [afterCall, Program.bind_apply]
  · obtain rfl : result = errorUnpackScript := by
      rcases concludes with ⟨quiet, -⟩ | ⟨-, ended⟩
      · cases outcome.symm.trans quiet
      · exact ended
    have left : Lua.leave script ⟨stack, out, calls⟩ =
        (.ret true, ⟨message :: stack, out, calls⟩) := by
      rw [Lua.leave, outcome]
    rw [Program.bind_of_ret (inLua_of_ret left)]
    apply inLua_of_ret
    rcases raises _ _ outcome with ⟨text, rfl⟩ | ⟨value, rfl⟩
    · simp [afterCall, Program.bind_apply, Lua.checklstring]
    · simp [afterCall, Program.bind_apply, Lua.checklstring, LuaState.setValueAt, LuaState.slot]

/--
`unpack` refuses the message, or calls the function with the decoded arguments: its actions are
done, and then the result is known.
-/
theorem unpack_eq (setup : Setup) (engine : Engine) (raises : RaisesText script)
    {proto : NetProtocol} {handler : LuaValue} {types : List ArgType}
    (sound : proto.Sound types) (bound : proto.unpackRef = some handler) (buf : Bytes) (ext : ℤ)
    (reaction : List Action) :
    match decodeArgs types buf with
    | none => ∃ after, unpack setup script reaction proto buf ext engine =
        (.ret errorUnpackFormat, after) ∧ after.calls = engine.calls
    | some (values, consumed) => ∀ result,
        Concludes script (engine.calls ++ [(handler, .number ext :: values)]) consumed result →
        unpack setup script reaction proto buf ext engine =
          (performAll setup reaction >>= fun _ => pure result)
            (engine.called proto (engine.calls ++ [(handler, .number ext :: values)])) := by
  have looped := unpackArgs_zero engine.lua.stack.length buf pure sound.formats sound.balanced
    ⟨.number ext :: handler :: engine.lua.stack, engine.lua.out, engine.lua.calls⟩
  unfold unpack
  rw [Program.bind_of_ret (inLua_of_ret (Lua.gettop_apply _)), bound]
  simp only
  rw [Program.bind_of_ret (Program.modify_apply _ _),
    Program.bind_of_ret (inLua_of_ret (Lua.push_apply _ _)),
    Program.bind_of_ret (inLua_of_ret (Lua.assert_apply (sound.callable handler bound) _)),
    Program.bind_of_ret (inLua_of_ret (Lua.push_apply _ _))]
  rcases read : decodeArgs types buf with _ | ⟨values, consumed⟩
  · rw [read] at looped
    rcases looped with ⟨final, refused, same⟩
    rw [Program.bind_of_ret (inLua_of_ret refused), if_pos (by decide)]
    exact ⟨_, rfl, same⟩
  · rw [read] at looped
    rcases looped with ⟨-, -, step⟩
    intro result concludes
    rw [Program.bind_of_ret (inLua_of_ret step), if_neg (by omega), pcall, Program.bind_assoc,
      sound.length_args read ext]
    simp only [pushed_arguments]
    have entered := Lua.enter_apply engine.lua.stack engine.lua.out engine.lua.calls handler
      (.number ext :: values)
    rw [Program.bind_of_ret (inLua_of_ret entered), Program.bind_assoc]
    apply Program.bind_congr
    intro _ after performed
    have reached : run (Engine.performed setup) (engine.called proto
        (engine.calls ++ [(handler, .number ext :: values)])) reaction = some after := by
      rw [← finished_performAll]
      exact congrArg finished performed
    have same : after.lua = { engine.lua with
        calls := engine.calls ++ [(handler, .number ext :: values)] } := lua_of_run reached
    have height : engine.lua.stack.length = after.lua.stack.length := by rw [same]
    have made : Concludes script after.calls consumed result := by
      rw [calls, same]
      exact concludes
    rw [height]
    exact leave_afterCall setup.numerals raises made

/-- The result of `unpack_data` once `unpack` has returned. -/
def settled (proto : NetProtocol) (readedLen curReaded : ℤ) : ℤ :=
  if curReaded < 0 then curReaded
  else if curReaded = 0 ∧ proto.args.length > 0 then errorUnpackFormat
  else readedLen + curReaded

theorem settle_of_object {proto : NetProtocol} {curReaded : ℤ} (readedLen : ℤ)
    (there : curReaded = 0 → engine.object proto.self = some proto) :
    settle proto readedLen curReaded engine =
      (.ret (settled proto readedLen curReaded), engine) := by
  unfold settle settled
  by_cases negative : curReaded < 0
  · rw [if_pos negative, if_pos negative]
    rfl
  · rw [if_neg negative, if_neg negative]
    by_cases nothing : curReaded = 0
    · rw [if_pos nothing, Program.bind_of_ret (Program.require_of_some (there nothing))]
      by_cases some : proto.args.length > 0
      · rw [if_pos some, if_pos ⟨nothing, some⟩]
        rfl
      · rw [if_neg some, if_neg fun both => some both.2]
        rfl
    · rw [if_neg nothing, if_neg fun both => nothing both.1]
      rfl

theorem settle_of_deleted {proto : NetProtocol} (readedLen : ℤ)
    (deleted : engine.object proto.self = none) :
    settle proto readedLen 0 engine = (.fault, engine) := by
  rw [settle, if_neg (lt_irrefl 0), if_pos rfl,
    Program.bind_of_fault (Program.require_of_none deleted)]

/-- `unpack_data` of the manager with the protocols that there are. -/
def unpackNow (setup : Setup) (script : Lua.Script) (buf : Bytes) (ext : ℤ) (engine : Engine) :
    Exit ℤ × LuaState :=
  ProtoManager.unpackData setup.numerals script engine.world.protos buf buf.length ext engine.lua

theorem unpackNow_eq {buf : Bytes} {id header : ℕ} {proto : NetProtocol}
    (read : wireId buf = some (id, header)) (found : engine.world.protos[id]? = some proto)
    {ext curReaded : ℤ} {lua : LuaState}
    (unpacked : proto.unpack setup.numerals script (buf.drop header) (buf.drop header).length ext
      engine.lua = (.ret curReaded, lua)) :
    unpackNow setup script buf ext engine = (.ret (settled proto header curReaded), lua) := by
  have within := (wireId_le read).2
  have measured : (buf.length : ℤ) - header = (buf.drop header).length := by
    rw [List.length_drop]
    omega
  rw [unpackNow, unpackData_eq, read]
  simp only [dispatch, found, Int.toNat_natCast, measured]
  rw [Program.bind_of_ret unpacked, settled]
  split_ifs
  · rfl
  · rfl
  · rfl

/--
What `unpack_data` does with a message whose function has the actions.  It refuses the message,
or the function is called: its actions are done, and then the result is settled.  Without any
actions the result would be the same.
-/
inductive Unpacking (setup : Setup) (script : Lua.Script) (engine : Engine) (buf : Bytes) (ext : ℤ)
    (reaction : List Action) (outcome : Exit ℤ × Engine) : Prop
  | refused {result : ℤ} {after : Engine} {lua : LuaState}
      (returned : outcome = (.ret result, after))
      (now : unpackNow setup script buf ext engine = (.ret result, lua))
      (quiet : after.calls = lua.calls)
      (uncalled : ∀ id header proto, wireId buf = some (id, header) →
        engine.world.protos[id]? = some proto → proto.unpackRef = none ∨ proto.args ≠ [])
  | called {id header : ℕ} {proto : NetProtocol} {handler : LuaValue} {values : List LuaValue}
      {curReaded : ℤ} {lua : LuaState} (read : wireId buf = some (id, header))
      (found : engine.world.protos[id]? = some proto) (bound : proto.unpackRef = some handler)
      (noValues : proto.args = [] → values = [])
      (nothing : curReaded = 0 ↔ proto.args = [] ∧
        script (engine.calls ++ [(handler, .number ext :: values)]) = none)
      (whole : outcome = (performAll setup reaction >>= fun _ => settle proto header curReaded)
        (engine.called proto (engine.calls ++ [(handler, .number ext :: values)])))
      (now : unpackNow setup script buf ext engine =
        (.ret (settled proto header curReaded), lua))
      (recorded : lua.calls = engine.calls ++ [(handler, .number ext :: values)])

theorem settled_of_neg {curReaded : ℤ} (negative : curReaded < 0) (proto : NetProtocol)
    (readedLen : ℤ) : settled proto readedLen curReaded = curReaded :=
  if_pos negative

/-- `unpack_data` up to the call of `unpack`. -/
theorem unpackData_of_wireId {buf : Bytes} {id header : ℕ} (read : wireId buf = some (id, header))
    (reaction : List Action) (ext : ℤ) :
    unpackData setup script reaction buf ext engine =
      match engine.world.protos[id]? with
      | none => (.ret errorUnpackFormat, engine)
      | some proto => (unpack setup script reaction proto (buf.drop header) ext >>=
          settle proto header) engine := by
  rw [unpackData, read]
  simp only
  rw [Program.bind_of_ret (Program.get_apply _ _)]
  rcases engine.world.protos[id]? with _ | proto
  · rfl
  · rfl

section OfProtocol

variable {buf : Bytes} {id header : ℕ} {proto : NetProtocol}
  (read : wireId buf = some (id, header)) (found : engine.world.protos[id]? = some proto)

include read found

/-- The arguments of the message are refused, with the actions and without. -/
theorem Unpacking.of_refused {reaction : List Action} {ext : ℤ} {after : Engine} {lua : LuaState}
    (refused : unpack setup script reaction proto (buf.drop header) ext engine =
      (.ret errorUnpackFormat, after))
    (plain : proto.unpack setup.numerals script (buf.drop header) (buf.drop header).length ext
      engine.lua = (.ret errorUnpackFormat, lua))
    (quiet : after.calls = lua.calls) (uncalled : proto.unpackRef = none ∨ proto.args ≠ []) :
    Unpacking setup script engine buf ext reaction
      (unpackData setup script reaction buf ext engine) := by
  have returned : unpackData setup script reaction buf ext engine =
      (.ret errorUnpackFormat, after) := by
    rw [unpackData_of_wireId read, found]
    simp only
    rw [Program.bind_of_ret refused, settle, if_pos (by decide)]
    rfl
  have now := unpackNow_eq read found plain
  rw [settled_of_neg (by decide)] at now
  refine .refused returned now quiet ?_
  intro other length named same there
  cases read.symm.trans same
  cases found.symm.trans there
  exact uncalled

theorem Unpacking.of_unbound (unbound : proto.unpackRef = none) (ext : ℤ)
    (reaction : List Action) :
    Unpacking setup script engine buf ext reaction
      (unpackData setup script reaction buf ext engine) := by
  have refused : unpack setup script reaction proto (buf.drop header) ext engine =
      (.ret errorUnpackFormat, engine) := by
    rw [unpack, Program.bind_of_ret (inLua_of_ret (Lua.gettop_apply _)), unbound]
    rfl
  have plain : proto.unpack setup.numerals script (buf.drop header) (buf.drop header).length ext
      engine.lua = (.ret errorUnpackFormat, engine.lua) := by
    rw [NetProtocol.unpack, Program.bind_of_ret (Lua.gettop_apply _), unbound]
    rfl
  exact .of_refused read found refused plain rfl (.inl unbound)

theorem Unpacking.of_bound (raises : RaisesText script) {types : List ArgType}
    (sound : proto.Sound types) {handler : LuaValue} (bound : proto.unpackRef = some handler)
    (ext : ℤ) (reaction : List Action) :
    Unpacking setup script engine buf ext reaction
      (unpackData setup script reaction buf ext engine) := by
  have unpacks := unpack_eq setup engine raises sound bound (buf.drop header) ext reaction
  have plain := NetProtocol.unpack_eq setup.numerals raises sound bound (buf.drop header) ext
    engine.lua
  rcases decoded : decodeArgs types (buf.drop header) with _ | ⟨values, consumed⟩
  · rw [decoded] at unpacks plain
    rcases unpacks with ⟨after, refused, same⟩
    rcases plain with ⟨lua, unpacked, quiet⟩
    have taken : proto.args ≠ [] := by
      intro empty
      rw [sound.args_eq_nil.mp empty] at decoded
      cases decoded
    exact .of_refused read found refused unpacked (same.trans quiet.symm) (.inr taken)
  · rw [decoded] at unpacks plain
    rcases plain with ⟨enough, -, curReaded, lua, unpacked, recorded, outcome⟩
    rcases decodeArgs_consumed decoded enough with ⟨noValues, consumedNone⟩
    have concludes : Concludes script (engine.calls ++ [(handler, .number ext :: values)])
        consumed curReaded := by
      rw [recorded] at outcome
      exact outcome
    refine .called read found bound (fun empty => noValues (sound.args_eq_nil.mp empty)) ?_ ?_
      (unpackNow_eq read found unpacked) recorded
    · rw [sound.args_eq_nil, ← consumedNone]
      rcases concludes with ⟨quiet, rfl⟩ | ⟨raised, rfl⟩
      · rw [and_iff_left quiet, Nat.cast_eq_zero]
      · exact iff_of_false (by decide) fun both => raised both.2
    · rw [unpackData_of_wireId read, found]
      simp only
      rw [Program.bind_apply, unpacks curReaded concludes, ← Program.bind_apply,
        Program.bind_assoc]
      rfl

end OfProtocol

theorem unpacking (formatted : Formatted engine.world) (raises : RaisesText script)
    (buf : Bytes) (ext : ℤ) (reaction : List Action) :
    Unpacking setup script engine buf ext reaction
      (unpackData setup script reaction buf ext engine) := by
  rcases read : wireId buf with _ | ⟨id, header⟩
  · have returned : unpackData setup script reaction buf ext engine = (.ret 0, engine) := by
      rw [unpackData, read]
      rfl
    have now : unpackNow setup script buf ext engine = (.ret 0, engine.lua) := by
      rw [unpackNow, unpackData_eq, read]
    refine .refused returned now rfl ?_
    intro id header proto same
    cases read.symm.trans same
  · rcases found : engine.world.protos[id]? with _ | proto
    · have returned : unpackData setup script reaction buf ext engine =
          (.ret errorUnpackFormat, engine) := by
        rw [unpackData_of_wireId read, found]
      have now : unpackNow setup script buf ext engine = (.ret errorUnpackFormat, engine.lua) := by
        rw [unpackNow, unpackData_eq, read]
        simp only [dispatch, found]
        rfl
      refine .refused returned now rfl ?_
      intro other length named same there
      cases read.symm.trans same
      cases found.symm.trans there
    · rcases bound : proto.unpackRef with _ | handler
      · exact .of_unbound read found bound ext reaction
      · rcases formatted.sound proto (List.mem_of_getElem? found) with ⟨types, sound⟩
        exact .of_bound read found raises sound bound ext reaction

theorem performAll_of_run {actions : List Action} {later : Engine}
    (reached : run (performed setup) engine actions = some later) :
    performAll setup actions engine = (.ret (), later) := by
  rw [← finished_performAll] at reached
  rcases ended : performAll setup actions engine with ⟨_ | _ | _ | _, after⟩
  · rw [ended] at reached
    cases reached
    rfl
  · rw [ended] at reached
    cases reached
  · rw [ended] at reached
    cases reached
  · rw [ended] at reached
    cases reached

/--
What an action needs to go through: the load does not stop at an assertion or at an unknown
element type, and a closure is called for an object that is there, with arguments that fit.
-/
def Possible (setup : Setup) (engine : Engine) : Action → Prop
  | .load call => (attempt setup engine.world call).isSome = true
  | .invoke self arguments => ∃ proto dest values types, engine.object self = some proto ∧
      Rpc.Fits setup.numerals proto arguments dest values types
  | .assign _ => True

theorem performed_of_possible {action : Action} (possible : Possible setup engine action) :
    ∃ next, performed setup engine action = some next := by
  cases action with
  | load call =>
      rcases Option.isSome_iff_exists.mp possible with ⟨world, attempted⟩
      exact ⟨_, by rw [performed_load, attempted, Option.map_some]⟩
  | invoke self arguments =>
      rcases possible with ⟨proto, dest, values, types, found, fits⟩
      have posts := posts_pack fits.numbered fits.built fits.inDomain dest engine.calls
        engine.sends
      have stack : arguments.reverse = values.reverse ++ [dest] := by
        rw [fits.arguments, List.reverse_cons]
      rcases Option.isSome_iff_exists.mp posts.survives with ⟨sender, survives⟩
      exact ⟨_, by rw [performed_invoke, found, Option.bind_some, stack, survives, Option.map_some]⟩
  | assign globals => exact ⟨_, rfl⟩

theorem exists_run_of_possible {actions : List Action}
    (possible : StepsMeet (performed setup) (Possible setup) engine actions) :
    ∃ later, run (performed setup) engine actions = some later := by
  have progress {state : Engine} {action : Action} (_ : True)
      (possible : Possible setup state action) :
      ∃ next, performed setup state action = some next ∧ True := by
    rcases performed_of_possible possible with ⟨next, done⟩
    exact ⟨next, done, trivial⟩
  rcases exists_run_of_stepsMeet progress trivial possible with ⟨later, reached, -⟩
  exact ⟨later, reached⟩

/-- Every action is possible where it is done, whatever the function of a message is given. -/
def Allowed (setup : Setup) (engine : Engine) : Event → Prop
  | .act action => Possible setup engine action
  | .message buf _ reaction => ∀ (id header : ℕ) (proto : NetProtocol)
      (calls : List (LuaValue × List LuaValue)), wireId buf = some (id, header) →
      engine.world.protos[id]? = some proto →
      StepsMeet (performed setup) (Possible setup) (engine.called proto calls) reaction

/--
The message calls the function of a protocol without arguments.  The function replaces the
object of this protocol and returns.
-/
def Hazard (setup : Setup) (script : Lua.Script) (engine : Engine) : Event → Prop
  | .act _ => False
  | .message buf ext reaction => ∃ (id header : ℕ) (proto : NetProtocol) (handler : LuaValue),
      wireId buf = some (id, header) ∧ engine.world.protos[id]? = some proto ∧
      proto.unpackRef = some handler ∧ proto.args = [] ∧
      script (engine.calls ++ [(handler, [.number ext])]) = none ∧
      ¬Spares setup id (engine.called proto (engine.calls ++ [(handler, [.number ext])])) reaction

section Called

variable {buf : Bytes} {ext : ℤ} {reaction : List Action} {id header : ℕ} {proto : NetProtocol}
  {handler : LuaValue} {values : List LuaValue} {curReaded : ℤ} {later : Engine}
  (placed : Placed engine) (read : wireId buf = some (id, header))
  (found : engine.world.protos[id]? = some proto) (bound : proto.unpackRef = some handler)
  (noValues : proto.args = [] → values = [])
  (nothing : curReaded = 0 ↔ proto.args = [] ∧
    script (engine.calls ++ [(handler, .number ext :: values)]) = none)
  (reached : run (performed setup) (engine.called proto
    (engine.calls ++ [(handler, .number ext :: values)])) reaction = some later)

include placed found reached

/-- After the actions of a function the object of its message is there, or was replaced. -/
theorem called_object :
    Spares setup id (engine.called proto (engine.calls ++ [(handler, .number ext :: values)]))
        reaction ∧ later.object proto.self = some proto ∨
      ¬Spares setup id (engine.called proto (engine.calls ++ [(handler, .number ext :: values)]))
        reaction ∧ later.object proto.self = none := by
  have begun : Placed (engine.called proto
      (engine.calls ++ [(handler, .number ext :: values)])) :=
    ⟨placed.addressed, placed.older, placed.apart⟩
  exact object_later begun found reached

include read bound noValues nothing

/-- A called function makes a hazard exactly if an object is read that is deleted. -/
theorem hazard_iff_deleted :
    Hazard setup script engine (.message buf ext reaction) ↔
      curReaded = 0 ∧ later.object proto.self = none := by
  have gone : later.object proto.self = none ↔ ¬Spares setup id (engine.called proto
      (engine.calls ++ [(handler, .number ext :: values)])) reaction := by
    rcases called_object placed found reached with ⟨spares, there⟩ | ⟨replaced, absent⟩
    · exact iff_of_false (by simp [there]) fun replaced => replaced spares
    · exact iff_of_true absent replaced
  rw [nothing, gone]
  constructor
  · rintro ⟨other, length, named, function, again, also, isBound, noArgs, quiet, replaced⟩
    cases read.symm.trans again
    cases found.symm.trans also
    cases bound.symm.trans isBound
    rw [noValues noArgs]
    exact ⟨⟨noArgs, quiet⟩, replaced⟩
  · rintro ⟨⟨noArgs, quiet⟩, replaced⟩
    rw [noValues noArgs] at quiet replaced
    exact ⟨id, header, proto, handler, read, found, bound, noArgs, quiet, replaced⟩

theorem settle_of_not_hazard (safe : ¬Hazard setup script engine (.message buf ext reaction)) :
    settle proto header curReaded later = (.ret (settled proto header curReaded), later) := by
  apply settle_of_object
  intro zero
  rw [hazard_iff_deleted placed read found bound noValues nothing reached] at safe
  rcases called_object placed found reached with ⟨-, there⟩ | ⟨-, absent⟩
  · exact there
  · exact absurd ⟨zero, absent⟩ safe

end Called

theorem step_isSome_iff (raises : RaisesText script) (housed : Housed engine) {event : Event}
    (allowed : Allowed setup engine event) :
    (step setup script engine event).isSome = true ↔ ¬Hazard setup script engine event := by
  cases event with
  | act action =>
      rcases performed_of_possible allowed with ⟨next, performed⟩
      exact iff_of_true (by rw [step, performed]; rfl) fun hazard => hazard
  | message buf ext reaction =>
      cases unpacking housed.formatted raises buf ext reaction with
      | refused returned now quiet uncalled =>
          refine iff_of_true (by rw [step, returned]; rfl) ?_
          rintro ⟨id, header, proto, handler, read, found, bound, noArgs, -⟩
          rcases uncalled id header proto read found with unbound | some
          · cases bound.symm.trans unbound
          · exact some noArgs
      | @called id header proto handler values curReaded _ read found bound noValues nothing
          whole =>
          rcases exists_run_of_possible (allowed id header proto _ read found) with
            ⟨later, reached⟩
          rw [step, whole, Program.finished_bind, finished_performAll, reached, Option.bind_some]
          by_cases hazard : Hazard setup script engine (.message buf ext reaction)
          · rcases (hazard_iff_deleted housed.placed read found bound noValues nothing
              reached).mp hazard with ⟨rfl, absent⟩
            rw [settle_of_deleted header absent]
            exact iff_of_false (by simp [finished]) fun safe => safe hazard
          · rw [settle_of_not_hazard housed.placed read found bound noValues nothing reached
              hazard]
            exact iff_of_true rfl hazard

end Messages

/-- A server whose function reloads its own protocol, which has no arguments. -/
def reloadsItself : List Event :=
  [.act (.load (.add (noArgs "pto/s_reload.pto"))),
    .message [1] 7 [.load (.update (.number 1) (noArgs "pto/s_reload.pto"))]]

end Engine

end SimpleModule
