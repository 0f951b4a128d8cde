import SimpleModule.Protocol.Objects
import SimpleModule.Protocol.Orphans

/-!
# An engine: one manager and its script

The functions that messages call are script functions: they may call closures of the caller
table, and they may load protocols and replace old ones while `unpack_data` is still at work on
their message.  `unpack_data` keeps a pointer to the protocol object meanwhile, and reads its
arguments once more after the call if no bytes were read.

An engine takes messages and actions of its script in any order, and each message comes with
the actions of the function that it calls.  This file has the engine and says what becomes of
its objects: registered ones, those that failed loads have left, and those that are deleted.
-/

namespace SimpleModule

open Octets Exits Runs ArgType

/-! ## The engine -/

namespace Engine

/-- What the counters are for. -/
inductive Counting
  | pack
  | unpack
  deriving DecidableEq

/--
What is counted, and the registrations between: the code keeps no such records.  A call for an
object that a failed load has left is not one for the id of this object.
-/
inductive Record
  | registered (id : ℕ)
  | counted (which : Counting) (id : ℕ)
  | orphaned
  deriving DecidableEq

/--
Counters of calls: `_total_pack_count` and the `_pack_count` of each object, by its address, or
those of `unpack`.
-/
structure Counters where
  total : ℕ
  count : ℕ → ℕ

/-- The counter in the constructor of an object. -/
def Counters.construct (counters : Counters) (self : ℕ) : Counters :=
  { counters with count := Function.update counters.count self 0 }

def Counters.increment (counters : Counters) (self : ℕ) : Counters :=
  ⟨counters.total + 1, Function.update counters.count self (counters.count self + 1)⟩

/--
What a script does: it calls a method of the manager or a closure with the object at some
address, or changes its globals.
-/
inductive Action
  | load (call : ProtoManager.Call)
  | invoke (self : ℕ) (arguments : List LuaValue)
  | assign (globals : List (LuaKey × LuaValue))

/-- An action of the main script, or a message with the actions of the function it calls. -/
inductive Event
  | act (action : Action)
  | message (buf : Bytes) (ext : ℤ) (reaction : List Action)

end Engine

/--
A program with one manager: the objects that failed loads have left, the state of Lua that
`unpack_data` works on, and the calls of the send hook in order.
-/
structure Engine where
  world : World
  orphans : List NetProtocol
  lua : LuaState
  sends : List Send
  packs : Engine.Counters
  unpacks : Engine.Counters
  history : List Engine.Record

namespace Engine

open NetProtocol ProtoManager

/-- A manager without protocols. -/
def start (args : List ArgObj) (globals : List (LuaKey × LuaValue)) : Engine :=
  ⟨.init args globals, [], ⟨[], [], []⟩, [], ⟨0, fun _ => 0⟩, ⟨0, fun _ => 0⟩, []⟩

/-- The functions that messages have called, in order. -/
def calls (engine : Engine) : List (LuaValue × List LuaValue) := engine.lua.calls

/-- The registered object at an address. -/
def registered (self : ℕ) (engine : Engine) : Option NetProtocol :=
  engine.world.protos.find? (·.self = self)

/-- The object at an address, unless it has been deleted. -/
def object (self : ℕ) (engine : Engine) : Option NetProtocol :=
  (engine.registered self).or (engine.orphans.find? (·.self = self))

/-- The counters of the next object. -/
def construct (engine : Engine) : Engine :=
  { engine with
    packs := engine.packs.construct engine.world.nextSelf
    unpacks := engine.unpacks.construct engine.world.nextSelf }

def countPack (proto : NetProtocol) (engine : Engine) : Engine :=
  { engine with
    packs := engine.packs.increment proto.self
    history := engine.history ++
      [if (engine.registered proto.self).isSome then .counted .pack proto.id else .orphaned] }

def countUnpack (proto : NetProtocol) (engine : Engine) : Engine :=
  { engine with
    unpacks := engine.unpacks.increment proto.self
    history := engine.history ++ [.counted .unpack proto.id] }

/-! ### What a script does -/

/-- The state after a call of the manager that has ended so. -/
def loaded (setup : Setup) (call : Call) (engine : Engine) (ended : Exit Bool) (world : World) :
    Engine :=
  { engine.construct with
    world := world
    orphans := engine.orphans ++ (call.orphan setup engine.world ended).toList
    history := engine.history ++
      if ended = .ret true then [.registered (call.target setup engine.world)] else [] }

/-- `add_protocol` or `update_protocol`. -/
def load (setup : Setup) (call : Call) : Program Engine Bool := fun engine =>
  let (ended, world) := call.program setup engine.world
  (ended, loaded setup call engine ended world)

/-- `pack`, called with the object at an address. -/
def pack (setup : Setup) (self : ℕ) (arguments : List LuaValue) : Program Engine ℤ := do
  let proto ← .require (object self)
  .modify (countPack proto)
  .focus (fun engine => (⟨⟨arguments.reverse, [], engine.calls⟩, engine.sends⟩ : Sender))
    (fun engine sender => { engine with sends := sender.sends }) (proto.pack setup.numerals)

/-- One action; the script goes on after errors. -/
def perform (setup : Setup) : Action → Program Engine Unit
  | .load call => (load setup call).caught
  | .invoke self arguments => (pack setup self arguments).caught
  | .assign globals => .modify fun engine =>
      { engine with world := { engine.world with globals := globals } }

def performAll (setup : Setup) : List Action → Program Engine Unit
  | [] => pure ()
  | action :: rest => do
      perform setup action
      performAll setup rest

/-! ### What a message does -/

/-- A program on the state of Lua. -/
def inLua {α : Type} (program : LuaM α) : Program Engine α :=
  .focus lua (fun engine lua => { engine with lua := lua }) program

/-- `lua_pcall` of a function with these actions. -/
def pcall (setup : Setup) (script : Lua.Script) (reaction : List Action) (count : ℕ) :
    Program Engine Bool := do
  inLua (Lua.enter count)
  performAll setup reaction
  inLua (Lua.leave script)

/-- `unpack`, with the actions of the function; a negative length stands for a refusal. -/
def unpack (setup : Setup) (script : Lua.Script) (reaction : List Action) (proto : NetProtocol)
    (buf : Bytes) (ext : ℤ) : Program Engine ℤ := do
  let top ← inLua Lua.gettop
  match proto.unpackRef with
  | none => return errorUnpackFormat
  | some handler => do
      .modify (countUnpack proto)
      inLua (Lua.push handler)
      inLua (Lua.assert handler.isFunction)
      inLua (Lua.push (.number ext))
      let readedLen ← inLua (unpackArgs top buf buf.length pure proto.args 0)
      if readedLen < 0 then return readedLen
      else do
        let status ← pcall setup script reaction (proto.args.length + 1)
        inLua (afterCall setup.numerals top readedLen status)

/-- `unpack_data` after `unpack` has returned; the object must still be there if it is read. -/
def settle (proto : NetProtocol) (readedLen curReaded : ℤ) : Program Engine ℤ :=
  if curReaded < 0 then return curReaded
  else if curReaded = 0 then do
    let found ← .require (object proto.self)
    if found.args.length > 0 then return errorUnpackFormat
    else return readedLen + curReaded
  else return readedLen + curReaded

def unpackData (setup : Setup) (script : Lua.Script) (reaction : List Action) (buf : Bytes)
    (ext : ℤ) : Program Engine ℤ :=
  match wireId buf with
  | none => return 0
  | some (protoId, readedLen) => do
      match ← .get fun engine => engine.world.protos[protoId]? with
      | none => return errorUnpackFormat
      | some proto => do
          let curReaded ← unpack setup script reaction proto (buf.drop readedLen) ext
          settle proto readedLen curReaded

/-! ### Steps -/

/-- The state after an action, if the engine goes on. -/
def performed (setup : Setup) (engine : Engine) (action : Action) : Option Engine :=
  finished (perform setup action engine)

/-- The state after an event, if the engine goes on. -/
def step (setup : Setup) (script : Lua.Script) (engine : Engine) : Event → Option Engine
  | .act action => performed setup engine action
  | .message buf ext reaction => finished (unpackData setup script reaction buf ext engine)

/-! ## What events do -/

section Events

variable {setup : Setup} {script : Lua.Script} {engine next : Engine}

theorem performed_load (setup : Setup) (engine : Engine) (call : Call) :
    performed setup engine (.load call) =
      (attempt setup engine.world call).map
        (loaded setup call engine (call.program setup engine.world).1) := by
  rw [performed, perform, Program.finished_caught, load, attempt]
  rcases call.program setup engine.world with ⟨_ | _ | _ | _, after⟩
  · rfl
  · rfl
  · rfl
  · rfl

theorem performed_invoke (setup : Setup) (engine : Engine) (self : ℕ)
    (arguments : List LuaValue) :
    performed setup engine (.invoke self arguments) =
      (engine.object self).bind fun proto =>
        (survived (proto.pack setup.numerals
          ⟨⟨arguments.reverse, [], engine.calls⟩, engine.sends⟩)).map fun sender =>
            { countPack proto engine with sends := sender.sends } := by
  rw [performed, perform, Program.finished_caught, pack]
  rcases found : engine.object self with _ | proto
  · rw [Program.bind_of_fault (Program.require_of_none found)]
    rfl
  · rw [Program.bind_of_ret (Program.require_of_some found),
      Program.bind_of_ret (Program.modify_apply _ _), Program.focus, Option.bind_some]
    have sameCalls : (countPack proto engine).calls = engine.calls := rfl
    have sameSends : (countPack proto engine).sends = engine.sends := rfl
    rw [sameCalls, sameSends]
    rcases proto.pack setup.numerals ⟨⟨arguments.reverse, [], engine.calls⟩, engine.sends⟩ with
      ⟨_ | _ | _ | _, sender⟩
    · rfl
    · rfl
    · rfl
    · rfl

theorem finished_performAll (setup : Setup) (actions : List Action) (engine : Engine) :
    finished (performAll setup actions engine) = run (performed setup) engine actions := by
  induction actions generalizing engine with
  | nil => rfl
  | cons action rest ih =>
      rw [performAll, Program.finished_bind, run_cons]
      exact Option.bind_congr fun after _ => ih after

theorem inLua_ret {α : Type} {program : LuaM α} {value : α}
    (returned : inLua program engine = (.ret value, next)) :
    program engine.lua = (.ret value, next.lua) ∧ next = { engine with lua := next.lua } := by
  rw [inLua, Program.focus, Prod.mk.injEq] at returned
  rcases returned with ⟨ended, rfl⟩
  exact ⟨Prod.ext ended rfl, rfl⟩

theorem inLua_of_ret {α : Type} {program : LuaM α} {value : α} {lua : LuaState}
    (returned : program engine.lua = (.ret value, lua)) :
    inLua program engine = (.ret value, { engine with lua := lua }) := by
  rw [inLua, Program.focus, returned]

/-- A call of a function runs its actions, between two changes of the state of Lua. -/
theorem pcall_ret {reaction : List Action} {count : ℕ} {status : Bool}
    (returned : pcall setup script reaction count engine = (.ret status, next)) :
    ∃ lua later, run (performed setup) { engine with lua := lua } reaction = some later ∧
      next = { later with lua := next.lua } := by
  rcases Program.bind_eq_ret_iff.mp returned with ⟨_, begun, entered, later⟩
  rcases Program.bind_eq_ret_iff.mp later with ⟨_, last, performed, left⟩
  refine ⟨begun.lua, last, ?_, (inLua_ret left).2⟩
  rw [← (inLua_ret entered).2, ← finished_performAll, performed]
  rfl

/--
`unpack` counts the message and runs actions, if it calls the function, with changes of the
state of Lua before and after them.
-/
theorem unpack_ret {reaction : List Action} {proto : NetProtocol} {buf : Bytes}
    {ext curReaded : ℤ}
    (returned : unpack setup script reaction proto buf ext engine = (.ret curReaded, next)) :
    next = { engine with lua := next.lua } ∨
      ∃ lua actions later,
        run (performed setup) { countUnpack proto engine with lua := lua } actions = some later ∧
        next = { later with lua := next.lua } := by
  rcases Program.bind_eq_ret_iff.mp returned with ⟨top, begun, asked, later⟩
  have same := (inLua_ret asked).2
  rcases bound : proto.unpackRef with _ | handler
  · rw [bound] at later
    cases later
    exact .inl same
  · right
    simp only [bound] at later
    rw [Program.bind_of_ret (Program.modify_apply _ _)] at later
    rcases Program.bind_eq_ret_iff.mp later with ⟨_, first, pushed, later⟩
    rcases Program.bind_eq_ret_iff.mp later with ⟨_, second, asserted, later⟩
    rcases Program.bind_eq_ret_iff.mp later with ⟨_, third, given, later⟩
    rcases Program.bind_eq_ret_iff.mp later with ⟨readedLen, fourth, read, later⟩
    have counted : fourth = { countUnpack proto engine with lua := fourth.lua } := by
      rw [(inLua_ret read).2, (inLua_ret given).2, (inLua_ret asserted).2, (inLua_ret pushed).2,
        same]
      rfl
    split_ifs at later
    · cases later
      exact ⟨next.lua, [], next, by rw [← counted]; rfl, rfl⟩
    · rcases Program.bind_eq_ret_iff.mp later with ⟨status, fifth, called, ended⟩
      rcases pcall_ret called with ⟨lua, last, performed, after⟩
      refine ⟨lua, reaction, last, ?_, ?_⟩
      · rw [counted] at performed
        exact performed
      · rw [(inLua_ret ended).2, after]

theorem settle_ret {proto : NetProtocol} {readedLen curReaded result : ℤ}
    (returned : settle proto readedLen curReaded engine = (.ret result, next)) :
    next = engine := by
  unfold settle at returned
  split_ifs at returned
  · cases returned
    rfl
  · rcases Program.bind_eq_ret_iff.mp returned with ⟨found, between, required, ended⟩
    rw [Program.require, Prod.mk.injEq] at required
    rcases required with ⟨-, rfl⟩
    split_ifs at ended
    · cases ended
      rfl
    · cases ended
      rfl
  · cases returned
    rfl

theorem unpackData_ret {reaction : List Action} {buf : Bytes} {ext result : ℤ}
    (returned : unpackData setup script reaction buf ext engine = (.ret result, next)) :
    next = { engine with lua := next.lua } ∨ ∃ (id : ℕ) (proto : NetProtocol) (lua : LuaState)
      (actions : List Action) (later : Engine), engine.world.protos[id]? = some proto ∧
      run (performed setup) { countUnpack proto engine with lua := lua } actions = some later ∧
      next = { later with lua := next.lua } := by
  unfold unpackData at returned
  rcases read : wireId buf with _ | ⟨id, header⟩
  · rw [read] at returned
    cases returned
    exact .inl rfl
  · simp only [read] at returned
    rw [Program.bind_of_ret (Program.get_apply _ _)] at returned
    rcases found : engine.world.protos[id]? with _ | proto
    · rw [found] at returned
      cases returned
      exact .inl rfl
    · simp only [found] at returned
      rcases Program.bind_eq_ret_iff.mp returned with ⟨curReaded, between, unpacked, settled⟩
      rw [settle_ret settled]
      rcases unpack_ret unpacked with same | ⟨lua, actions, later, performed, after⟩
      · exact .inl same
      · exact .inr ⟨id, proto, lua, actions, later, found, performed, after⟩

/-- What actions, countings and the state of Lua do not change, whole events keep. -/
theorem step_invariant {property : Engine → Prop}
    (performing : ∀ {engine next action}, property engine →
      performed setup engine action = some next → property next)
    (counting : ∀ {engine : Engine} {id : ℕ} {proto : NetProtocol}, property engine →
      engine.world.protos[id]? = some proto → property (countUnpack proto engine))
    (talking : ∀ {engine : Engine} (lua : LuaState), property engine →
      property { engine with lua := lua })
    {event : Event} (holds : property engine)
    (stepped : step setup script engine event = some next) : property next := by
  cases event with
  | act action => exact performing holds stepped
  | message buf ext reaction =>
      rcases ended : unpackData setup script reaction buf ext engine with ⟨exit, after⟩
      rw [step, ended] at stepped
      cases exit with
      | ret result =>
          cases stepped
          rcases unpackData_ret ended with
            same | ⟨id, proto, lua, actions, later, found, performed, same⟩
          · rw [same]
            exact talking next.lua holds
          · have states := statesMeet_of_stepsMeet
              (fun kept _ stepped => performing kept stepped) (talking lua (counting holds found))
              (stepsMeet_of_run performed)
            rw [same]
            exact talking next.lua (states.last performed)
      | raise => cases stepped
      | abort => cases stepped
      | fault => cases stepped

end Events

/-! ## Objects while an engine runs -/

section Objects

variable {setup : Setup} {script : Lua.Script} {engine next : Engine} {action : Action}

/-- All objects are at addresses of their own. -/
structure Placed (engine : Engine) : Prop where
  addressed : Addressed engine.world
  older : ∀ orphan ∈ engine.orphans, orphan.self < engine.world.nextSelf
  apart : ∀ orphan ∈ engine.orphans, ∀ proto ∈ engine.world.protos, proto.self ≠ orphan.self

theorem placed_start (args : List ArgObj) (globals : List (LuaKey × LuaValue)) :
    Placed (start args globals) :=
  ⟨addressed_init args globals, by simp [start], by simp [start]⟩

theorem mem_orphans_loaded {call : Call} {ended : Exit Bool} {world : World} {orphan : NetProtocol}
    (member : orphan ∈ (loaded setup call engine ended world).orphans) :
    orphan ∈ engine.orphans ∨ call.orphan setup engine.world ended = some orphan := by
  rwa [loaded, List.mem_append, Option.mem_toList] at member

theorem not_succeeds_of_orphan {world : World} {call : Call} {orphan : NetProtocol}
    (left : call.orphan setup world (call.program setup world).1 = some orphan) :
    ¬Succeeds setup world call := by
  intro succeeds
  rw [succeeds] at left
  cases left

theorem Placed.load {call : Call} {world : World} (placed : Placed engine)
    (attempted : attempt setup engine.world call = some world) :
    Placed (loaded setup call engine (call.program setup engine.world).1 world) := by
  have addressed := placed.addressed
  refine ⟨addressed.attempt attempted, ?_, ?_⟩
  · intro orphan member
    rcases mem_orphans_loaded member with old | left
    · have before := placed.older orphan old
      show orphan.self < world.nextSelf
      rcases attempt_cases addressed.started attempted with ⟨-, new, registers⟩ | ⟨-, lingers⟩
      · have nextSelf := registers.nextSelf
        omega
      · exact before.trans_le lingers.nextSelf
    · have used := (orphan_left addressed.started left).1
      rwa [attempt_program attempted] at used
  · intro orphan member proto there
    rcases mem_orphans_loaded member with old | left
    · rcases attempt_cases addressed.started attempted with ⟨-, new, registers⟩ | ⟨-, lingers⟩
      · have before := placed.older orphan old
        have newSelf := registers.self
        rcases List.mem_iff_getElem?.mp there with ⟨id, found⟩
        rcases registers.found found with ⟨-, rfl⟩ | ⟨-, kept⟩
        · omega
        · exact placed.apart orphan old proto (List.mem_of_getElem? kept)
      · exact placed.apart orphan old proto (lingers.protos ▸ there)
    · rcases attempt_cases addressed.started attempted with ⟨succeeds, -⟩ | ⟨-, lingers⟩
      · exact absurd succeeds (not_succeeds_of_orphan left)
      · rcases List.mem_iff_getElem?.mp there with ⟨id, found⟩
        have kept : engine.world.protos[id]? = some proto := lingers.protos ▸ found
        rw [(orphan_eq_some left).1]
        exact (addressed.older kept).ne

theorem Placed.performed (placed : Placed engine)
    (stepped : performed setup engine action = some next) : Placed next := by
  cases action with
  | load call =>
      rw [performed_load, Option.map_eq_some_iff] at stepped
      rcases stepped with ⟨world, attempted, rfl⟩
      exact placed.load attempted
  | invoke self arguments =>
      rw [performed_invoke, Option.bind_eq_some_iff] at stepped
      rcases stepped with ⟨proto, -, packed⟩
      rcases Option.map_eq_some_iff.mp packed with ⟨sender, -, rfl⟩
      exact ⟨placed.addressed, placed.older, placed.apart⟩
  | assign globals =>
      cases stepped
      have addressed := placed.addressed
      exact ⟨⟨addressed.started, addressed.numbered, addressed.older, addressed.distinct⟩,
        placed.older, placed.apart⟩

/-- What holds of the objects of an engine whatever it does. -/
structure Housed (engine : Engine) : Prop where
  placed : Placed engine
  formatted : Formatted engine.world

theorem formatted_performed (housed : Housed engine)
    (stepped : performed setup engine action = some next) : Formatted next.world := by
  cases action with
  | load call =>
      rw [performed_load, Option.map_eq_some_iff] at stepped
      rcases stepped with ⟨world, attempted, rfl⟩
      exact housed.formatted.attempt housed.placed.addressed.started attempted
  | invoke self arguments =>
      rw [performed_invoke, Option.bind_eq_some_iff] at stepped
      rcases stepped with ⟨proto, -, packed⟩
      rcases Option.map_eq_some_iff.mp packed with ⟨sender, -, rfl⟩
      exact housed.formatted
  | assign globals =>
      cases stepped
      exact ⟨housed.formatted.registered, housed.formatted.sound⟩

theorem Housed.performed (housed : Housed engine)
    (stepped : performed setup engine action = some next) : Housed next :=
  ⟨housed.placed.performed stepped, formatted_performed housed stepped⟩

theorem Housed.step {event : Event} (housed : Housed engine)
    (stepped : step setup script engine event = some next) : Housed next := by
  apply step_invariant _ _ _ housed stepped
  · intro engine next action housed performed
    exact housed.performed performed
  · rintro engine id proto ⟨⟨addressed, older, apart⟩, formatted⟩ _
    exact ⟨⟨addressed, older, apart⟩, formatted⟩
  · rintro engine lua ⟨⟨addressed, older, apart⟩, formatted⟩
    exact ⟨⟨addressed, older, apart⟩, formatted⟩

theorem housed_start {args : List ArgObj} (registered : Registered args)
    (globals : List (LuaKey × LuaValue)) : Housed (start args globals) :=
  ⟨placed_start args globals, formatted_init registered globals⟩

theorem housed_of_run {args : List ArgObj} (registered : Registered args)
    {globals : List (LuaKey × LuaValue)} {events : List Event}
    (reached : run (Engine.step setup script) (start args globals) events = some engine) :
    Housed engine := by
  have states : StatesMeet (Engine.step setup script) Housed (start args globals) events :=
    statesMeet_of_stepsMeet (fun housed _ stepped => housed.step stepped)
      (housed_start registered globals) (stepsMeet_of_run reached)
  exact states.last reached

theorem registered_of_found (addressed : Addressed engine.world) {id : ℕ} {proto : NetProtocol}
    (found : engine.world.protos[id]? = some proto) :
    engine.registered proto.self = some proto := by
  rcases searched : engine.registered proto.self with _ | other
  · have absent := List.find?_eq_none.mp searched proto (List.mem_of_getElem? found)
    simp at absent
  · have same : other.self = proto.self := by simpa using List.find?_some searched
    rcases List.mem_iff_getElem?.mp (List.mem_of_find?_eq_some searched) with ⟨place, there⟩
    rw [addressed.distinct there found same, found] at there
    exact there.symm

theorem object_of_registered (addressed : Addressed engine.world) {id : ℕ} {proto : NetProtocol}
    (found : engine.world.protos[id]? = some proto) : engine.object proto.self = some proto := by
  rw [object, registered_of_found addressed found, Option.some_or]

/-- The objects that are there are registered, or failed loads have left them. -/
theorem object_cases {self : ℕ} {proto : NetProtocol} (found : engine.object self = some proto) :
    (∃ id : ℕ, engine.world.protos[id]? = some proto) ∨ proto ∈ engine.orphans := by
  rw [object, Option.or_eq_some_iff] at found
  rcases found with registered | ⟨-, orphan⟩
  · exact .inl (List.mem_iff_getElem?.mp (List.mem_of_find?_eq_some registered))
  · exact .inr (List.mem_of_find?_eq_some orphan)

theorem Placed.registered_orphan {orphan : NetProtocol} (placed : Placed engine)
    (member : orphan ∈ engine.orphans) : engine.registered orphan.self = none := by
  rw [registered, List.find?_eq_none]
  intro proto there
  simpa using placed.apart orphan member proto there

/-- An object that has been deleted. -/
structure Gone (address : ℕ) (engine : Engine) : Prop where
  older : address < engine.world.nextSelf
  unregistered : ∀ proto ∈ engine.world.protos, proto.self ≠ address
  noOrphan : ∀ orphan ∈ engine.orphans, orphan.self ≠ address

theorem Gone.object {self : ℕ} (gone : Gone self engine) : engine.object self = none := by
  rw [Engine.object, registered, Option.or_eq_none_iff, List.find?_eq_none, List.find?_eq_none]
  constructor
  · intro proto member
    simpa using gone.unregistered proto member
  · intro orphan member
    simpa using gone.noOrphan orphan member

/-- Addresses are not used twice. -/
theorem Gone.performed {self : ℕ} (gone : Gone self engine) (addressed : Addressed engine.world)
    (stepped : performed setup engine action = some next) : Gone self next := by
  have older := gone.older
  cases action with
  | load call =>
      rw [performed_load, Option.map_eq_some_iff] at stepped
      rcases stepped with ⟨world, attempted, rfl⟩
      have noOrphan : ∀ orphan ∈ (loaded setup call engine (call.program setup engine.world).1
          world).orphans, orphan.self ≠ self := by
        intro orphan member
        rcases mem_orphans_loaded member with old | left
        · exact gone.noOrphan orphan old
        · have newSelf := (orphan_eq_some left).1
          omega
      rcases attempt_cases addressed.started attempted with
        ⟨-, new, registers⟩ | ⟨-, lingers⟩
      · have nextSelf := registers.nextSelf
        have newSelf := registers.self
        refine ⟨show self < world.nextSelf by omega, ?_, noOrphan⟩
        intro proto member
        rcases List.mem_iff_getElem?.mp member with ⟨id, found⟩
        rcases registers.found found with ⟨-, rfl⟩ | ⟨-, old⟩
        · omega
        · exact gone.unregistered proto (List.mem_of_getElem? old)
      · refine ⟨older.trans_le lingers.nextSelf, ?_, noOrphan⟩
        intro proto member
        exact gone.unregistered proto (lingers.protos ▸ member)
  | invoke self arguments =>
      rw [performed_invoke, Option.bind_eq_some_iff] at stepped
      rcases stepped with ⟨proto, -, packed⟩
      rcases Option.map_eq_some_iff.mp packed with ⟨sender, -, rfl⟩
      exact ⟨older, gone.unregistered, gone.noOrphan⟩
  | assign globals =>
      cases stepped
      exact ⟨older, gone.unregistered, gone.noOrphan⟩

/-- The action puts a new object in the place of the one with the id. -/
def Replaces (setup : Setup) (id : ℕ) (engine : Engine) : Action → Prop
  | .load call => Succeeds setup engine.world call ∧ call.target setup engine.world = id
  | .invoke _ _ => False
  | .assign _ => False

/-- No action replaces the object of the id. -/
def Spares (setup : Setup) (id : ℕ) (engine : Engine) (actions : List Action) : Prop :=
  StepsMeet (performed setup) (fun engine action => ¬Replaces setup id engine action) engine
    actions

section Replaced

variable {id : ℕ} {proto : NetProtocol} (placed : Placed engine)
  (found : engine.world.protos[id]? = some proto)

include placed found

theorem gone_of_replaces (replaces : Replaces setup id engine action)
    (stepped : performed setup engine action = some next) : Gone proto.self next := by
  cases action with
  | load call =>
      rcases replaces with ⟨succeeds, rfl⟩
      rw [performed_load, Option.map_eq_some_iff] at stepped
      rcases stepped with ⟨world, attempted, rfl⟩
      have addressed := placed.addressed
      have older := addressed.older found
      rcases attempt_cases addressed.started attempted with
        ⟨-, new, registers⟩ | ⟨fails, -⟩
      · have nextSelf := registers.nextSelf
        have newSelf := registers.self
        refine ⟨show proto.self < world.nextSelf by omega, ?_, ?_⟩
        · intro other member same
          rcases List.mem_iff_getElem?.mp member with ⟨place, there⟩
          rcases registers.found there with ⟨-, rfl⟩ | ⟨apart, old⟩
          · omega
          · exact apart (addressed.distinct old found same)
        · intro orphan member
          rcases mem_orphans_loaded member with old | left
          · exact (placed.apart orphan old proto (List.mem_of_getElem? found)).symm
          · exact absurd succeeds (not_succeeds_of_orphan left)
      · exact absurd succeeds fails
  | invoke self arguments => cases replaces
  | assign globals => cases replaces

theorem registered_of_not_replaces (spares : ¬Replaces setup id engine action)
    (stepped : performed setup engine action = some next) :
    next.world.protos[id]? = some proto := by
  cases action with
  | load call =>
      rw [performed_load, Option.map_eq_some_iff] at stepped
      rcases stepped with ⟨world, attempted, rfl⟩
      rcases attempt_cases placed.addressed.started attempted with
        ⟨succeeds, new, registers⟩ | ⟨-, lingers⟩
      · have apart : id ≠ call.target setup engine.world := by
          rintro rfl
          exact spares ⟨succeeds, rfl⟩
        exact (registers.elsewhere id apart).trans found
      · show world.protos[id]? = some proto
        rw [lingers.protos, found]
  | invoke self arguments =>
      rw [performed_invoke, Option.bind_eq_some_iff] at stepped
      rcases stepped with ⟨packed, -, sent⟩
      rcases Option.map_eq_some_iff.mp sent with ⟨sender, -, rfl⟩
      exact found
  | assign globals =>
      cases stepped
      exact found

/-- After any actions an object is still there, or one of them has replaced it. -/
theorem object_later {actions : List Action} {later : Engine}
    (reached : run (Engine.performed setup) engine actions = some later) :
    Spares setup id engine actions ∧ later.object proto.self = some proto ∨
      ¬Spares setup id engine actions ∧ later.object proto.self = none := by
  induction actions generalizing engine with
  | nil =>
      cases reached
      exact .inl ⟨trivial, object_of_registered placed.addressed found⟩
  | cons action rest ih =>
      rw [run_cons, Option.bind_eq_some_iff] at reached
      rcases reached with ⟨between, stepped, reached⟩
      have kept := placed.performed stepped
      rw [Spares, stepsMeet_cons_of_some stepped]
      by_cases replaces : Replaces setup id engine action
      · have gone := gone_of_replaces placed found replaces stepped
        have states : StatesMeet (Engine.performed setup)
            (fun engine => Placed engine ∧ Gone proto.self engine) between rest := by
          refine statesMeet_of_stepsMeet ?_ ⟨kept, gone⟩ (stepsMeet_of_run reached)
          rintro state action next ⟨placed, absent⟩ _ stepped
          exact ⟨placed.performed stepped, absent.performed placed.addressed stepped⟩
        exact .inr ⟨fun spares => spares.1 replaces, (states.last reached).2.object⟩
      · rw [and_iff_right replaces]
        exact ih kept (registered_of_not_replaces placed found replaces stepped) reached

end Replaced

/-! ### The state of Lua -/

/-- Scripts that are called use parts of the stack of their own. -/
theorem lua_performed (stepped : performed setup engine action = some next) :
    next.lua = engine.lua := by
  cases action with
  | load call =>
      rw [performed_load, Option.map_eq_some_iff] at stepped
      rcases stepped with ⟨world, -, rfl⟩
      rfl
  | invoke self arguments =>
      rw [performed_invoke, Option.bind_eq_some_iff] at stepped
      rcases stepped with ⟨proto, -, packed⟩
      rcases Option.map_eq_some_iff.mp packed with ⟨sender, -, rfl⟩
      rfl
  | assign globals =>
      cases stepped
      rfl

theorem lua_of_run {later : Engine} {actions : List Action}
    (reached : run (Engine.performed setup) engine actions = some later) :
    later.lua = engine.lua := by
  have states : StatesMeet (Engine.performed setup) (fun state => state.lua = engine.lua) engine
      actions := by
    refine statesMeet_of_stepsMeet ?_ rfl (stepsMeet_of_run reached)
    intro state action next same _ stepped
    exact (lua_performed stepped).trans same
  exact states.last reached

end Objects

end Engine

end SimpleModule
