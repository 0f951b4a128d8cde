import SimpleModule.Protocol.History

/-!
# Several managers in a process

The registry of formats is static: every manager of a process adds the built-in types to it
when it is constructed, its protocols hold pointers into it, and every destructor deletes all
of it.  The managers themselves are in a map by name.

`ManagerProcess` is the state that managers share.  A format has an address, which is its place in
the order of creation; a destructor moves `base` behind the formats that it has deleted.
-/

namespace SimpleModule

open Octets Exits Runs

namespace NetProtocol

/-! ## Slots -/

/-- Where the registry has the object of an entry, once the entry is answered. -/
def ArgRequest.slot (args : List ArgObj) : ArgRequest → Option ℕ
  | .rejected => none
  | .unnamed => none
  | .named text => args.findIdx? fun arg => arg.typeName = cString text
  | .array text _ => (getArg args text).map fun _ => args.length

/-- The places of the objects that the loop of `arglist_proc` stores in a protocol. -/
def slots (numerals : Numerals) : List LuaValue → List ArgObj → List ℕ
  | [], _ => []
  | desc :: rest, args =>
      ((argRequest numerals desc).slot args).toList ++
        slots numerals rest ((argRequest numerals desc).answer args).2

section Slots

variable {numerals : Numerals} {args after : List ArgObj} {request : ArgRequest} {arg : ArgObj}

theorem slot_of_accepted (accepted : request.answer args = (.ret (some arg), after)) :
    ∃ place, request.slot args = some place ∧ after[place]? = some arg := by
  cases request with
  | rejected => cases accepted
  | unnamed => cases accepted
  | named text =>
      rw [ArgRequest.answer, Prod.mk.injEq, Exit.ret.injEq] at accepted
      rcases accepted with ⟨found, rfl⟩
      rw [getArg, List.find?_eq_bind_findIdx?_getElem?, Option.bind_eq_some_iff] at found
      exact found
  | array text size =>
      rw [ArgRequest.answer] at accepted
      rcases found : getArg args text with _ | base
      · rw [found] at accepted
        cases accepted
      · rw [found] at accepted
        cases accepted
        exact ⟨args.length, by rw [ArgRequest.slot, found]; rfl, by simp⟩

/-- The slots of an accepted list hold its objects. -/
theorem slots_readArgs {entries : List LuaValue} {list registry : List ArgObj}
    (listed : readArgs numerals entries args = (.ret (some list), registry)) :
    (slots numerals entries args).map (registry[·]?) = list.map some := by
  induction entries generalizing args list with
  | nil =>
      cases listed
      rfl
  | cons desc rest ih =>
      rcases Program.bind_eq_ret_iff.mp listed with ⟨answer, between, answered, listed⟩
      cases answer with
      | none => cases listed
      | some arg =>
          rcases Program.bind_eq_ret_iff.mp listed with ⟨others, last, later, returned⟩
          cases others with
          | none => cases returned
          | some others =>
              cases returned
              rw [readArg_eq] at answered
              rcases slot_of_accepted answered with ⟨place, slot, stored⟩
              have grows := growsByArrays_readArgs numerals rest between
              rw [later] at grows
              rcases grows.append with ⟨more, rfl, -⟩
              have inside : place < between.length := (List.getElem?_eq_some_iff.mp stored).1
              rw [slots, slot, answered, Option.toList_some, List.singleton_append, List.map_cons,
                ih later, List.getElem?_append_left inside, stored, List.map_cons]

theorem slots_arglistProc {setup : Setup} {file : DescFile} {name : Bytes} {isMaker : Bool}
    {desc : LuaValue} {list registry : List ArgObj}
    (read : described setup file = some (name, isMaker, desc))
    (listed : arglistProc setup.numerals desc args = (.ret (some list), registry)) :
    (slots setup.numerals (entriesOf setup file) args).map (registry[·]?) = list.map some := by
  rw [arglistProc_eq] at listed
  rw [entriesOf, read, Option.bind_some]
  rcases entries : argEntries desc with _ | entries
  · rw [entries] at listed
    cases listed
  · rw [entries] at listed
    exact slots_readArgs listed

end Slots

end NetProtocol

/-! ## Processes -/

/-- A `proto_manager`.  With each protocol are the addresses that its `_args` holds. -/
structure Manager where
  forMaker : Bytes
  forCaller : Bytes
  protocols : List (NetProtocol × List ℕ)

/--
The state of a process with any number of managers: `_s_args`, the address of its first
format, the globals of Lua, the address of the next protocol, the managers in the order of
their construction, `ProtoManagerMap` and the height of the Lua stack.
-/
structure ManagerProcess where
  args : List ArgObj
  base : ℕ
  globals : List (LuaKey × LuaValue)
  nextSelf : ℕ
  managers : List (Option Manager)
  protoManagerMap : List (Bytes × ℕ)
  top : ℕ

namespace ManagerProcess

open NetProtocol

/-- The format at an address. -/
def argAt (process : ManagerProcess) (address : ℕ) : Option ArgObj :=
  if process.base ≤ address then process.args[address - process.base]? else none

/-- A manager that has not been destroyed. -/
def live (process : ManagerProcess) (index : ℕ) : Option Manager := process.managers[index]?.join

/-- A process before any manager. -/
def start (globals : List (LuaKey × LuaValue)) : ManagerProcess := ⟨[], 0, globals, 0, [], [], 0⟩

/-- The constructor, `SetForMaker` and `SetForCaller`. -/
def construct (forMaker forCaller : Bytes) (process : ManagerProcess) : ManagerProcess :=
  { process with
    args := process.args ++ initArgs
    nextSelf := process.nextSelf + 1
    managers := process.managers ++
      [some ⟨forMaker, forCaller, [(⟨process.nextSelf, 0, [], [], none, false⟩, [])]⟩] }

/-- The destructor, which deletes the protocols of one manager and the formats of all. -/
def destroy (index : ℕ) (process : ManagerProcess) : ManagerProcess :=
  { process with
    args := []
    base := process.base + process.args.length
    managers := process.managers.set index none }

/-- The part of the state that a call on a manager sees. -/
def world (process : ManagerProcess) (manager : Manager) : World :=
  ⟨process.args, process.globals, manager.protocols.map Prod.fst,
    manager.protocols.map fun _ => none, process.nextSelf⟩

/-- The constants of a manager. -/
def setupOf (shared : Setup) (manager : Manager) : Setup :=
  { shared with forMaker := manager.forMaker, forCaller := manager.forCaller }

/-- `add_protocol` on a manager. -/
def addProtocol (shared : Setup) (index : ℕ) (manager : Manager) (file : DescFile)
    (process : ManagerProcess) : Exit Bool × ManagerProcess :=
  let setup := setupOf shared manager
  let outcome := ProtoManager.addProtocol setup file (process.world manager)
  let addresses := (slots setup.numerals (entriesOf setup file) process.args).map (process.base + ·)
  let new := outcome.2.protos.drop manager.protocols.length
  (outcome.1, { process with
    args := outcome.2.args
    globals := outcome.2.globals
    nextSelf := outcome.2.nextSelf
    managers := process.managers.set index (some { manager with
      protocols := manager.protocols ++ new.map fun proto => (proto, addresses) }) })

/-- `add_arg_type`, which does not look at its manager. -/
def addArgType (shared : Setup) (file : TableFile) (process : ManagerProcess) :
    Exit Unit × ManagerProcess :=
  let outcome := FcallArgManager.addTableArgs shared.numerals file process.args
  (outcome.1, { process with args := outcome.2 })

inductive Event
  | construct (forMaker forCaller : Bytes)
  | addArgType (manager : ℕ) (file : TableFile)
  | addProtocol (manager : ℕ) (file : DescFile)
  | destroy (manager : ℕ)

/-- The state after an event; there is none after a call on a manager that is not live. -/
def step (shared : Setup) (process : ManagerProcess) : Event → Option ManagerProcess
  | .construct forMaker forCaller => some (process.construct forMaker forCaller)
  | .addArgType index file =>
      (process.live index).bind fun _ => survived (process.addArgType shared file)
  | .addProtocol index file =>
      (process.live index).bind fun manager =>
        survived (process.addProtocol shared index manager file)
  | .destroy index => (process.live index).map fun _ => process.destroy index

/-- The arguments of live managers are registered, and so are the built-in types for them. -/
structure Works (process : ManagerProcess) : Prop where
  held : ∀ manager, some manager ∈ process.managers → ∀ entry ∈ manager.protocols,
    entry.2.map process.argAt = entry.1.args.map some
  builtIn : ∀ manager, some manager ∈ process.managers → ∀ arg ∈ initArgs,
    (getArg process.args arg.typeName).isSome = true

/-- Only the last live manager is destroyed. -/
def Alone (process : ManagerProcess) : Event → Prop
  | .construct _ _ => True
  | .addArgType _ _ => True
  | .addProtocol _ _ => True
  | .destroy index => (process.live index).isSome = true →
      ∀ other, (process.live other).isSome = true → other = index

/-- The registry of a later state has the same formats at the same addresses, and more. -/
def Grown (process next : ManagerProcess) : Prop :=
  next.base = process.base ∧ ∃ more, next.args = process.args ++ more

section Growth

variable {shared : Setup} {process next : ManagerProcess}

theorem mem_managers_iff {manager : Manager} :
    some manager ∈ process.managers ↔ ∃ index, process.live index = some manager := by
  rw [List.mem_iff_getElem?]
  simp [live, Option.join_eq_some_iff]

theorem Grown.argAt (grown : Grown process next) {address : ℕ} {arg : ArgObj}
    (found : process.argAt address = some arg) : next.argAt address = some arg := by
  rcases grown with ⟨base, more, args⟩
  rw [ManagerProcess.argAt] at found ⊢
  rw [base, args]
  split_ifs at found ⊢ with reached
  have inside := (List.getElem?_eq_some_iff.mp found).1
  rw [List.getElem?_append_left inside, found]

/-- Addresses go on to hold their objects. -/
theorem Grown.map_argAt (grown : Grown process next) {addresses : List ℕ} {list : List ArgObj}
    (held : addresses.map process.argAt = list.map some) :
    addresses.map next.argAt = list.map some := by
  induction addresses generalizing list with
  | nil => simpa using held
  | cons address rest ih =>
      cases list with
      | nil => cases held
      | cons arg others =>
          rw [List.map_cons, List.map_cons, List.cons.injEq] at held
          rw [List.map_cons, List.map_cons, grown.argAt held.1, ih held.2]

theorem Grown.isSome_getArg (grown : Grown process next) {name : Bytes}
    (found : (getArg process.args name).isSome = true) :
    (getArg next.args name).isSome = true := by
  rcases grown with ⟨-, more, args⟩
  rw [getArg] at found
  rw [args, getArg, List.find?_append, Option.isSome_or, found, Bool.true_or]

/-- Each of the built-in types is found under its own name, whatever came before. -/
theorem isSome_getArg_builtIn (args : List ArgObj) {arg : ArgObj} (member : arg ∈ initArgs) :
    (getArg (args ++ initArgs) arg.typeName).isSome = true := by
  have own : (getArg initArgs arg.typeName).isSome = true := by
    simp only [initArgs, List.mem_cons, List.not_mem_nil, or_false] at member
    rcases member with rfl | rfl | rfl | rfl | rfl
    · decide
    · decide
    · decide
    · decide
    · decide
  rw [getArg, List.find?_append, Option.isSome_or]
  rw [getArg] at own
  rw [own, Bool.or_true]

theorem Works.construct (works : Works process) (forMaker forCaller : Bytes) :
    Works (process.construct forMaker forCaller) := by
  constructor
  · intro manager member entry held
    rw [ManagerProcess.construct, List.mem_append, List.mem_singleton] at member
    rcases member with old | new
    · have grown : Grown process (process.construct forMaker forCaller) := ⟨rfl, _, rfl⟩
      exact grown.map_argAt (works.held manager old entry held)
    · cases new
      rw [List.mem_singleton] at held
      rw [held]
      rfl
  · intro manager member arg known
    exact isSome_getArg_builtIn process.args known

theorem grown_addArgType (file : TableFile) :
    Grown process (process.addArgType shared file).2 := by
  rw [addArgType, FcallArgManager.addTableArgs_eq]
  rcases FcallArgManager.readFormat shared.numerals process.args file with arg | _ | _ | _
  · exact ⟨rfl, [arg], rfl⟩
  · exact ⟨rfl, [], by simp⟩
  · exact ⟨rfl, [], by simp⟩
  · exact ⟨rfl, [], by simp⟩

theorem Works.addArgType (works : Works process) (file : TableFile) :
    Works (process.addArgType shared file).2 := by
  have grown : Grown process (process.addArgType shared file).2 := grown_addArgType file
  constructor
  · intro manager member entry held
    exact grown.map_argAt (works.held manager member entry held)
  · intro manager member arg known
    exact grown.isSome_getArg (works.builtIn manager member arg known)

/-- Nobody is left once the last manager has been destroyed. -/
theorem Works.destroy {index : ℕ} (alone : ∀ other, (process.live other).isSome = true →
    other = index) : Works (process.destroy index) := by
  have nobody : ∀ manager, some manager ∉ (process.destroy index).managers := by
    intro manager member
    rcases mem_managers_iff.mp member with ⟨other, found⟩
    rw [live, ManagerProcess.destroy, List.getElem?_set] at found
    split_ifs at found with same
    · cases found
    · cases found
    · exact same (alone other (by rw [live, found]; rfl)).symm
  exact ⟨fun manager member => absurd member (nobody manager),
    fun manager member => absurd member (nobody manager)⟩

/-- Any other live manager misses the built-in types. -/
theorem alone_of_works_destroy {index : ℕ} (works : Works (process.destroy index)) :
    ∀ other, (process.live other).isSome = true → other = index := by
  intro other isLive
  by_contra distinct
  rcases Option.isSome_iff_exists.mp isLive with ⟨manager, found⟩
  have remains : some manager ∈ (process.destroy index).managers := by
    apply mem_managers_iff.mpr
    refine ⟨other, ?_⟩
    rw [live, ManagerProcess.destroy, List.getElem?_set_ne (Ne.symm distinct)]
    exact found
  have resolved := works.builtIn manager remains ⟨ofString "number", ofString "number", .number⟩
    (.head _)
  cases resolved

/-- What `add_protocol` puts into the list: nothing, or an object with the slots of its file. -/
theorem protos_addProtocol (setup : Setup) (file : DescFile) (world : World) :
    (ProtoManager.addProtocol setup file world).2.protos = world.protos ∨
      ∃ new, (ProtoManager.addProtocol setup file world).2.protos = world.protos ++ [new] ∧
        (slots setup.numerals (entriesOf setup file) world.args).map
          ((ProtoManager.addProtocol setup file world).2.args[·]?) = new.args.map some := by
  by_cases started : 0 < world.protos.length
  · have call : ProtoManager.addProtocol setup file world =
        ProtoManager.loadNew setup world.protos.length file
          ((ProtoManager.Call.add file).install setup) world :=
      (ProtoManager.program_eq started (.add file)).trans (if_pos rfl)
    rw [call]
    have outcome := ProtoManager.loadOutcome setup world world.protos.length file
      ((ProtoManager.Call.add file).install setup)
    generalize ProtoManager.loadNew setup world.protos.length file _ world = result at outcome
    cases outcome with
    | undescribed nothing => exact .inl rfl
    | unconstructed read fails => exact .inl rfl
    | unbound read constructs missing => exact .inl rfl
    | @loaded name isMaker desc args registry unpackRef read binds bound resolve listed =>
        right
        refine ⟨⟨world.nextSelf, world.protos.length, args, name, unpackRef, isMaker⟩, ?_,
          slots_arglistProc read listed⟩
        rcases ProtoManager.begun_eq setup world name isMaker with ⟨globals, stored⟩
        simp [ProtoManager.Call.install, stored]
    | @refused name isMaker desc more result read binds unresolved harmless reports =>
        left
        rcases ProtoManager.begun_eq setup world name isMaker with ⟨globals, stored⟩
        rw [stored]
  · left
    simp [ProtoManager.addProtocol, Program.bind_apply, started]

theorem grown_addProtocol (index : ℕ) (manager : Manager) (file : DescFile) :
    Grown process (process.addProtocol shared index manager file).2 := by
  rcases (argsGrow_program (setupOf shared manager) (.add file) (process.world manager)).append
    with ⟨more, args, -⟩
  exact ⟨rfl, more, args⟩

/-- Each protocol that `add_protocol` puts into the list holds the addresses of its arguments. -/
theorem held_addProtocol {index : ℕ} {manager : Manager} {file : DescFile} {proto : NetProtocol}
    (new : proto ∈ (ProtoManager.addProtocol (setupOf shared manager) file
      (process.world manager)).2.protos.drop manager.protocols.length) :
    ((slots (setupOf shared manager).numerals (entriesOf (setupOf shared manager) file)
        process.args).map (process.base + ·)).map
          (process.addProtocol shared index manager file).2.argAt = proto.args.map some := by
  have count : manager.protocols.length = (process.world manager).protos.length := by
    simp [world]
  rw [count] at new
  rcases protos_addProtocol (setupOf shared manager) file (process.world manager) with
    same | ⟨added, more, places⟩
  · rw [same, List.drop_length] at new
    cases new
  · rw [more, List.drop_left, List.mem_singleton] at new
    subst new
    rw [List.map_map, ← places]
    apply List.map_congr_left
    intro place _
    simp [argAt, addProtocol]

theorem Works.addProtocol {index : ℕ} {manager : Manager} (works : Works process)
    (isLive : process.live index = some manager) (file : DescFile) :
    Works (process.addProtocol shared index manager file).2 := by
  have grown : Grown process (process.addProtocol shared index manager file).2 :=
    grown_addProtocol index manager file
  have known := mem_managers_iff.mpr ⟨index, isLive⟩
  constructor
  · intro other member entry held
    rcases List.mem_or_eq_of_mem_set member with old | same
    · exact grown.map_argAt (works.held other old entry held)
    · cases same
      rcases List.mem_append.mp held with old | new
      · exact grown.map_argAt (works.held manager known entry old)
      · rcases List.mem_map.mp new with ⟨proto, added, rfl⟩
        exact held_addProtocol added
  · intro other member arg builtIn
    exact grown.isSome_getArg (works.builtIn manager known arg builtIn)

theorem Works.step {event : Event} (works : Works process) (alone : Alone process event)
    (stepped : step shared process event = some next) : Works next := by
  cases event with
  | construct forMaker forCaller =>
      cases stepped
      exact works.construct forMaker forCaller
  | addArgType index file =>
      rcases Option.bind_eq_some_iff.mp stepped with ⟨manager, -, survives⟩
      rw [← survived_eq_some survives]
      exact works.addArgType file
  | addProtocol index file =>
      rcases Option.bind_eq_some_iff.mp stepped with ⟨manager, isLive, survives⟩
      rw [← survived_eq_some survives]
      exact works.addProtocol isLive file
  | destroy index =>
      rcases Option.map_eq_some_iff.mp stepped with ⟨manager, isLive, rfl⟩
      exact .destroy (alone (by rw [isLive]; rfl))

theorem alone_of_works {event : Event}
    (later : ∀ next, step shared process event = some next → Works next) :
    Alone process event := by
  cases event with
  | construct forMaker forCaller => trivial
  | addArgType index file => trivial
  | addProtocol index file => trivial
  | destroy index =>
      intro isLive
      rcases Option.isSome_iff_exists.mp isLive with ⟨manager, found⟩
      apply alone_of_works_destroy
      apply later
      rw [step, found]
      rfl

end Growth

/--
The managers of a process work in every state of a run exactly if no manager is destroyed
while another one is live.
-/
theorem works_iff_alone (shared : Setup) (globals : List (LuaKey × LuaValue))
    (events : List Event) :
    StatesMeet (step shared) Works (start globals) events ↔
      StepsMeet (step shared) Alone (start globals) events := by
  constructor
  · intro states
    have any : StepsMeet (step shared) (fun _ _ => True) (start globals) events :=
      stepsMeet_of_forall (fun _ _ => trivial) _ _
    exact stepsMeet_of_statesMeet (fun _ _ later => alone_of_works later) states any
  · intro steps
    have empty : Works (start globals) :=
      ⟨fun _ member => (List.not_mem_nil member).elim,
        fun _ member => (List.not_mem_nil member).elim⟩
    exact statesMeet_of_stepsMeet (fun works alone stepped => works.step alone stepped) empty steps

/-- Which of the arguments of a manager are still registered, protocol by protocol. -/
def registered (process : ManagerProcess) (manager : Manager) : List (List Bool) :=
  manager.protocols.map fun entry => entry.2.map fun address => (process.argAt address).isSome

/-- The destruction of the first of two managers takes the formats of the second. -/
theorem not_works_after_destroy :
    ∃ process, run (step ProtoManager.clientSide) (start [])
        [.construct (ofString "maker_a") (ofString "caller_a"),
          .construct (ofString "maker_b") (ofString "caller_b"),
          .addProtocol 1 (ProtoManager.oneArg "pto/s_a.pto" "byte"), .destroy 0] = some process ∧
      (process.live 1).map process.registered = some [[], [false]] ∧ process.args = [] ∧
      ¬Works process := by
  have seen : (run (step ProtoManager.clientSide) (start [])
      [.construct (ofString "maker_a") (ofString "caller_a"),
        .construct (ofString "maker_b") (ofString "caller_b"),
        .addProtocol 1 (ProtoManager.oneArg "pto/s_a.pto" "byte"), .destroy 0]).map
      (fun process => ((process.live 1).map process.registered, process.args.length)) =
        some (some [[], [false]], 0) := by
    decide +kernel
  rcases Option.map_eq_some_iff.mp seen with ⟨process, reached, facts⟩
  rw [Prod.mk.injEq] at facts
  rcases facts with ⟨lost, none⟩
  have empty : process.args = [] := List.length_eq_zero_iff.mp none
  refine ⟨process, reached, lost, empty, ?_⟩
  intro works
  rcases Option.map_eq_some_iff.mp lost with ⟨manager, isLive, -⟩
  have resolved := works.builtIn manager (mem_managers_iff.mpr ⟨1, isLive⟩)
    ⟨ofString "byte", ofString "byte", .byte⟩ (.tail _ (.head _))
  rw [empty] at resolved
  cases resolved

/-! ## Managers by name -/

/-- A global variable of Lua; its name is a C string. -/
def global (process : ManagerProcess) (name : Bytes) : LuaValue :=
  (LuaValue.table process.globals).field (.string (cString name))

/-- `lua_newtable` and `lua_setglobal`. -/
def setTable (process : ManagerProcess) (name : Bytes) : ManagerProcess :=
  { process with
    globals := LuaValue.setField process.globals (.string (cString name)) (.table []) }

/-- `GetProtoManager`, and the lookup in `GetProtoObj`. -/
def getProtoManager (process : ManagerProcess) (name : Bytes) : Option ℕ :=
  process.protoManagerMap.lookup name

/-- Both tables of a manager can be made. -/
def free (process : ManagerProcess) (forMaker forCaller : Bytes) : Bool :=
  (process.global forCaller).isNil && (process.global forMaker).isNil

/--
The manager has been made and is in the map.  The two globals are on the stack, where they
are checked.
-/
def entered (name forMaker forCaller : Bytes) (process : ManagerProcess) : ManagerProcess :=
  { process.construct (cString forMaker) (cString forCaller) with
    protoManagerMap := (name, process.managers.length) :: process.protoManagerMap
    top := process.top + 2 }

/-- `CreateNewProtoManager`; the result is absent for `NULL`. -/
def createNewProtoManager (name forMaker forCaller : Bytes) (process : ManagerProcess) :
    Option ℕ × ManagerProcess :=
  if (process.getProtoManager name).isSome then (none, process)
  else
    let created := process.entered name forMaker forCaller
    if created.free forMaker forCaller then
      (some process.managers.length,
        { (created.setTable forMaker).setTable forCaller with top := process.top })
    else (none, created)

/-- What a script can see of a call that returns `NULL`: nothing. -/
structure NoEffect (process after : ManagerProcess) (name : Bytes) : Prop where
  protoManagerMap : after.protoManagerMap = process.protoManagerMap
  globals : after.globals = process.globals
  top : after.top = process.top
  lookup : after.getProtoManager name = process.getProtoManager name
  retry : process.getProtoManager name = none → ∀ forMaker forCaller,
    after.free forMaker forCaller = true →
      (after.createNewProtoManager name forMaker forCaller).1.isSome = true

section Creation

variable {process : ManagerProcess} {name forMaker forCaller : Bytes}

theorem createNewProtoManager_of_taken (taken : (process.getProtoManager name).isSome = true) :
    process.createNewProtoManager name forMaker forCaller = (none, process) := if_pos taken

theorem free_entered :
    (process.entered name forMaker forCaller).free = process.free := rfl

theorem createNewProtoManager_of_free (absent : process.getProtoManager name = none)
    (isFree : process.free forMaker forCaller = true) :
    (process.createNewProtoManager name forMaker forCaller).1 = some process.managers.length := by
  have check : (process.getProtoManager name).isSome ≠ true := by simp [absent]
  rw [createNewProtoManager, if_neg check]
  simp only [free_entered, isFree, if_true]

/-- The second refusal comes after the registration. -/
theorem createNewProtoManager_of_clash (absent : process.getProtoManager name = none)
    (clash : process.free forMaker forCaller = false) :
    process.createNewProtoManager name forMaker forCaller =
      (none, process.entered name forMaker forCaller) := by
  have check : (process.getProtoManager name).isSome ≠ true := by simp [absent]
  rw [createNewProtoManager, if_neg check]
  simp only [free_entered, clash, Bool.false_eq_true, if_false]

theorem getProtoManager_entered :
    (process.entered name forMaker forCaller).getProtoManager name =
      some process.managers.length := by
  simp [getProtoManager, entered]

end Creation

/-- A refused creation has no effect exactly if it is refused for its name. -/
theorem noEffect_iff (process : ManagerProcess) (name forMaker forCaller : Bytes) :
    ((process.createNewProtoManager name forMaker forCaller).1 = none →
        NoEffect process (process.createNewProtoManager name forMaker forCaller).2 name) ↔
      (process.getProtoManager name).isSome = true ∨ process.free forMaker forCaller = true := by
  constructor
  · intro quiet
    by_contra neither
    rw [not_or, Bool.not_eq_true, Bool.not_eq_true, Option.isSome_eq_false_iff,
      Option.isNone_iff_eq_none] at neither
    rw [createNewProtoManager_of_clash neither.1 neither.2] at quiet
    have same := (quiet rfl).lookup
    rw [getProtoManager_entered, neither.1] at same
    cases same
  · intro condition refused
    rcases taken : process.getProtoManager name with _ | manager
    · rw [taken] at condition
      have isFree := condition.resolve_left (by decide)
      rw [createNewProtoManager_of_free taken isFree] at refused
      cases refused
    · have known : (process.getProtoManager name).isSome = true := by rw [taken]; rfl
      rw [createNewProtoManager_of_taken known]
      refine ⟨rfl, rfl, rfl, rfl, ?_⟩
      intro absent
      rw [taken] at absent
      cases absent

/-- The maker table exists: the name is taken afterwards, and a retry is refused. -/
theorem not_noEffect_clash :
    ∃ after, (start [(.string (ofString "maker"), .table [])]).createNewProtoManager
        (ofString "proto") (ofString "maker") (ofString "caller") = (none, after) ∧
      after.getProtoManager (ofString "proto") = some 0 ∧ after.top = 2 ∧
      after.free (ofString "other_maker") (ofString "other_caller") = true ∧
      (after.createNewProtoManager (ofString "proto") (ofString "other_maker")
        (ofString "other_caller")).1 = none := by
  refine ⟨_, rfl, ?_⟩
  decide +kernel

end ManagerProcess

end SimpleModule
