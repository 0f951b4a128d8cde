import SimpleModule.Protocol.Failures

/-!
# The reserved id

The constructor of the manager puts an object without arguments and without a function at
the id zero, which marks the long form of an id on the wire.  `add_protocol` and
`add_static_protocol` count from there.  `update_protocol` tests its unsigned id with
`proto_id >= 0`, so that it takes zero as any other id: a load that succeeds replaces the
object, and one that fails may leave a closure for an object with the id zero.

`TrackedManager` records the id of every object that was made, so that one can speak about the
objects of closures that are not registered.
-/

namespace SimpleModule

open Octets Exits Runs

namespace ProtoManager

open NetProtocol

/-- The state of a process, with the number of static protocols and the ids of all objects. -/
structure TrackedManager where
  world : World
  staticProtocolCount : ℕ
  ids : List ℕ

/-- The object that the constructor makes. -/
def placeholder : NetProtocol := ⟨0, 0, [], [], none, false⟩

def TrackedManager.init (args : List ArgObj) (globals : List (LuaKey × LuaValue)) :
    TrackedManager :=
  ⟨.init args globals, 0, [0]⟩

/-- An operation of the manager. -/
inductive Operation
  | addStaticProtocol (file : DescFile)
  | addProtocol (file : DescFile)
  | updateProtocol (idArg : LuaValue) (file : DescFile)

/-- The call that an operation makes. -/
def Operation.call : Operation → Call
  | addStaticProtocol file => .add file
  | addProtocol file => .add file
  | updateProtocol idArg file => .update idArg file

/-- A call on the world of a manager. -/
def onWorld (program : Program World Bool) : Program TrackedManager Bool :=
  .focus TrackedManager.world (fun manager world => { manager with world := world }) program

/-- `add_static_protocol` counts the protocols that it adds. -/
def Operation.program (setup : Setup) : Operation → Program TrackedManager Bool
  | addStaticProtocol file => do
      let added ← onWorld (ProtoManager.addProtocol setup file)
      if added then
        .modify fun manager =>
          { manager with staticProtocolCount := manager.staticProtocolCount + 1 }
      return added
  | addProtocol file => onWorld (ProtoManager.addProtocol setup file)
  | updateProtocol idArg file => onWorld (ProtoManager.updateProtocol setup idArg file)

/-- The ids of all objects after an operation. -/
def Operation.idsAfter (setup : Setup) (manager : TrackedManager) (operation : Operation) :
    List ℕ :=
  if operation.call.loads setup manager.world then
    manager.ids ++ [operation.call.target setup manager.world]
  else manager.ids

/-- The state after an operation, in a script that goes on after failures and errors. -/
def operate (setup : Setup) (manager : TrackedManager) (operation : Operation) :
    Option TrackedManager :=
  match operation.program setup manager with
  | (.ret _, after) => some { after with ids := operation.idsAfter setup manager }
  | (.raise, after) => some { after with ids := operation.idsAfter setup manager }
  | _ => none

/-- Objects have the ids they are registered under, and the id zero is not used. -/
structure Reserved (setup : Setup) (manager : TrackedManager) : Prop where
  numbered : ∀ {id : ℕ} {proto : NetProtocol}, manager.world.protos[id]? = some proto →
    proto.id = id
  slot : manager.world.protos[0]? = some placeholder
  callers : ∀ {key : LuaKey} {self : ℕ}, callerOf setup manager.world key = some self →
    ∃ id, manager.ids[self]? = some id ∧ id ≠ 0

/-- The load of a file neither stores a closure nor registers an object. -/
def storesNothing (setup : Setup) (world : World) (file : DescFile) : Bool :=
  match described setup file with
  | none => true
  | some (name, true, desc) =>
      !(available setup world name && argsResolve setup.numerals world.args desc)
  | some (_, false, _) => false

/-- An update of the id zero must not have an effect. -/
def SparesZero (setup : Setup) (manager : TrackedManager) (operation : Operation) : Prop :=
  operation.call.loads setup manager.world = true →
    operation.call.target setup manager.world = 0 →
    storesNothing setup manager.world operation.call.file = true

instance (setup : Setup) (manager : TrackedManager) (operation : Operation) :
    Decidable (SparesZero setup manager operation) :=
  inferInstanceAs (Decidable (_ → _ → _))

section Steps

variable {setup : Setup} {manager next : TrackedManager} {operation : Operation}

theorem program_world (setup : Setup) (manager : TrackedManager) (operation : Operation) :
    (operation.program setup manager).1 = (operation.call.program setup manager.world).1 ∧
      (operation.program setup manager).2.world =
        (operation.call.program setup manager.world).2 := by
  cases operation with
  | addStaticProtocol file =>
      simp only [Operation.program, Operation.call, Call.program, onWorld, Program.focus,
        Program.bind_apply]
      rcases ProtoManager.addProtocol setup file manager.world with ⟨(_ | _) | _ | _ | _, after⟩
      · exact ⟨rfl, rfl⟩
      · exact ⟨rfl, rfl⟩
      · exact ⟨rfl, rfl⟩
      · exact ⟨rfl, rfl⟩
      · exact ⟨rfl, rfl⟩
  | addProtocol file => exact ⟨rfl, rfl⟩
  | updateProtocol idArg file => exact ⟨rfl, rfl⟩

/-- An operation makes a call and records the object that the call has made. -/
theorem operate_attempt (stepped : operate setup manager operation = some next) :
    attempt setup manager.world operation.call = some next.world ∧
      next.ids = operation.idsAfter setup manager := by
  have same := program_world setup manager operation
  unfold operate at stepped
  unfold attempt
  generalize operation.program setup manager = outcome at stepped same
  generalize operation.call.program setup manager.world = result at same
  rcases outcome with ⟨ended, after⟩
  rcases result with ⟨ended', after'⟩
  rcases same with ⟨rfl, rfl⟩
  cases ended with
  | ret success =>
      cases stepped
      exact ⟨rfl, rfl⟩
  | raise =>
      cases stepped
      exact ⟨rfl, rfl⟩
  | abort => cases stepped
  | fault => cases stepped

/-- All effects of an operation. -/
theorem operate_cases (started : 0 < manager.world.protos.length)
    (stepped : operate setup manager operation = some next) :
    operation.call.loads setup manager.world = false ∧ next.world = manager.world ∧
        next.ids = manager.ids ∨
      operation.call.loads setup manager.world = true ∧
        next.ids = manager.ids ++ [operation.call.target setup manager.world] ∧
        ∃ ended, ended ≠ .abort ∧ ended ≠ .fault ∧
          LoadOutcome setup manager.world (operation.call.target setup manager.world)
            operation.call.file (operation.call.install setup) (ended, next.world) := by
  rcases operate_attempt stepped with ⟨attempted, recorded⟩
  rcases attempt_eq_some attempted with ⟨ended, returned, survives⟩
  rw [program_eq started] at returned
  unfold Operation.idsAfter at recorded
  split_ifs at returned recorded with loads
  · right
    have outcome := loadOutcome setup manager.world (operation.call.target setup manager.world)
      operation.call.file (operation.call.install setup)
    rw [returned] at outcome
    refine ⟨loads, recorded, ended, ?_, ?_, outcome⟩
    · rcases survives with ⟨success, rfl⟩ | rfl
      · simp
      · simp
    · rcases survives with ⟨success, rfl⟩ | rfl
      · simp
      · simp
  · left
    rw [Prod.mk.injEq] at returned
    exact ⟨by simpa using loads, returned.2.symm, recorded⟩

end Steps

/-! ## What a load does to the ids -/

section Loads

variable {setup : Setup} {world after : World} {call : Call} {ended : Exit Bool}

theorem install_found (loads : call.loads setup world = true)
    (new : NetProtocol) (registry : List ArgObj) (globals : List (LuaKey × LuaValue)) (self : ℕ) :
    (call.install setup new { world with
        args := registry, globals := globals, nextSelf := self }).protos[call.target setup world]? =
        some new ∧
      ∀ other, other ≠ call.target setup world →
        (call.install setup new { world with
          args := registry, globals := globals, nextSelf := self }).protos[other]? =
            world.protos[other]? := by
  cases call with
  | add file =>
      refine ⟨List.getElem?_concat_length, ?_⟩
      intro other different
      rcases Nat.lt_or_gt_of_ne different with earlier | later
      · exact List.getElem?_append_left earlier
      · have beyond : world.protos.length < other := later
        rw [List.getElem?_eq_none beyond.le]
        exact List.getElem?_eq_none (by simpa [Call.install] using beyond)
  | update idArg file =>
      have known : updateId setup idArg < world.protos.length := by
        simpa [Call.loads] using (Bool.and_eq_true_iff.mp loads).2
      refine ⟨List.getElem?_set_self known, ?_⟩
      intro other different
      exact List.getElem?_set_ne (Ne.symm different)

/-- A load that is no success leaves the protocols alone; a success registers one object. -/
theorem LoadOutcome.protos_cases (loads : call.loads setup world = true)
    (outcome : LoadOutcome setup world (call.target setup world) call.file (call.install setup)
      (ended, after)) :
    after.protos = world.protos ∨
      ∃ new : NetProtocol, new.id = call.target setup world ∧ new.self = world.nextSelf ∧
        after.protos[call.target setup world]? = some new ∧
        ∀ other, other ≠ call.target setup world → after.protos[other]? = world.protos[other]? := by
  cases outcome with
  | undescribed => exact .inl rfl
  | unconstructed => exact .inl rfl
  | unbound => exact .inl rfl
  | @loaded name isMaker desc args registry unpackRef =>
      rcases begun_eq setup world name isMaker with ⟨globals, stored⟩
      right
      rw [stored]
      exact ⟨_, rfl, rfl, install_found loads _ registry globals _⟩
  | @refused name isMaker desc more =>
      rcases begun_eq setup world name isMaker with ⟨globals, stored⟩
      left
      rw [stored]

theorem LoadOutcome.nextSelf_eq
    (outcome : LoadOutcome setup world (call.target setup world) call.file (call.install setup)
      (ended, after)) : after.nextSelf = world.nextSelf + 1 := by
  cases outcome with
  | undescribed => rfl
  | unconstructed => rfl
  | unbound => rfl
  | @loaded name isMaker desc args registry unpackRef =>
      rcases begun_eq setup world name isMaker with ⟨globals, stored⟩
      rw [stored]
      cases call with
      | add file => rfl
      | update idArg file => rfl
  | @refused name isMaker desc more =>
      rcases begun_eq setup world name isMaker with ⟨globals, stored⟩
      rw [stored]

theorem callerOf_install (setup : Setup) (call : Call) (new : NetProtocol) (world : World)
    (key : LuaKey) :
    callerOf setup (call.install setup new world) key = callerOf setup world key := by
  cases call with
  | add file => rfl
  | update idArg file => rfl

/-- The closures after a load are the old ones and one for a file that is called here. -/
theorem LoadOutcome.callers_cases
    (outcome : LoadOutcome setup world (call.target setup world) call.file (call.install setup)
      (ended, after)) {key : LuaKey} {self : ℕ} (caller : callerOf setup after key = some self) :
    callerOf setup world key = some self ∨
      self = world.nextSelf ∧
        ∃ name desc, described setup call.file = some (name, false, desc) := by
  have begunCase {name : Bytes} {isMaker : Bool} {desc : LuaValue}
      (read : described setup call.file = some (name, isMaker, desc))
      (stored : callerOf setup (begun setup world name isMaker) key = some self) :
      callerOf setup world key = some self ∨
        self = world.nextSelf ∧
          ∃ name desc, described setup call.file = some (name, false, desc) := by
    rw [callerOf_begun] at stored
    split_ifs at stored with here
    · rcases here with ⟨rfl, -⟩
      exact .inr ⟨(Option.some.inj stored).symm, name, desc, read⟩
    · exact .inl stored
  cases outcome with
  | undescribed => exact .inl caller
  | unconstructed => exact .inl caller
  | unbound => exact .inl caller
  | loaded unpackRef read =>
      rw [callerOf_install] at caller
      exact begunCase read caller
  | refused read => exact begunCase read caller

theorem LoadOutcome.protos_eq (nothing : storesNothing setup world call.file = true)
    (outcome : LoadOutcome setup world (call.target setup world) call.file (call.install setup)
      (ended, after)) : after.protos = world.protos := by
  cases outcome with
  | undescribed => rfl
  | unconstructed => rfl
  | unbound => rfl
  | @loaded name isMaker desc args registry unpackRef read binds bound resolve =>
      cases isMaker with
      | true => simp [storesNothing, read, binds rfl, resolve] at nothing
      | false => simp [storesNothing, read] at nothing
  | @refused name isMaker =>
      rcases begun_eq setup world name isMaker with ⟨globals, stored⟩
      rw [stored]

end Loads

/-! ## Runs -/

/-- What holds in every state of a run. -/
structure Tracked (setup : Setup) (manager : TrackedManager) : Prop where
  sited : Sited setup manager.world
  counted : manager.ids.length = manager.world.nextSelf
  recorded : ∀ {id : ℕ} {proto : NetProtocol}, manager.world.protos[id]? = some proto →
    manager.ids[proto.self]? = some proto.id

section Run

variable {setup : Setup} {manager next : TrackedManager} {operation : Operation}

theorem Tracked.operate (tracked : Tracked setup manager)
    (stepped : operate setup manager operation = some next) : Tracked setup next := by
  have sited := tracked.sited.attempt (operate_attempt stepped).1
  rcases operate_cases tracked.sited.started stepped with
    ⟨-, sameWorld, sameIds⟩ | ⟨loads, recorded, ended, -, -, outcome⟩
  · refine ⟨sited, ?_, ?_⟩
    · rw [sameIds, sameWorld, tracked.counted]
    · intro id proto found
      rw [sameWorld] at found
      rw [sameIds]
      exact tracked.recorded found
  · have old {id : ℕ} {proto : NetProtocol} (found : manager.world.protos[id]? = some proto) :
        next.ids[proto.self]? = some proto.id := by
      have known := tracked.recorded found
      rw [recorded, List.getElem?_append_left (List.getElem?_eq_some_iff.mp known).1, known]
    refine ⟨sited, ?_, ?_⟩
    · rw [recorded, outcome.nextSelf_eq, List.length_append, tracked.counted]
      rfl
    · intro id proto found
      rcases outcome.protos_cases loads with same | ⟨new, numbered, self, here, elsewhere⟩
      · rw [same] at found
        exact old found
      · by_cases target : id = operation.call.target setup manager.world
        · rw [target, here] at found
          cases found
          rw [recorded, numbered, self, ← tracked.counted, List.getElem?_concat_length]
        · rw [elsewhere id target] at found
          exact old found

theorem tracked_init (args : List ArgObj) {globals : List (LuaKey × LuaValue)}
    (none : ∀ key, callerOf setup (.init args globals) key = none) :
    Tracked setup (.init args globals) := by
  refine ⟨sited_init args none, rfl, ?_⟩
  intro id proto found
  cases id with
  | zero =>
      cases found
      rfl
  | succ id => cases found

/-- An operation that leaves the id zero alone keeps it reserved. -/
theorem Reserved.operate (tracked : Tracked setup manager) (reserved : Reserved setup manager)
    (spares : SparesZero setup manager operation)
    (stepped : operate setup manager operation = some next) : Reserved setup next := by
  refine ⟨(tracked.operate stepped).sited.numbered, ?_, ?_⟩
  · rcases operate_cases tracked.sited.started stepped with
      ⟨-, sameWorld, -⟩ | ⟨loads, -, ended, -, -, outcome⟩
    · rw [sameWorld]
      exact reserved.slot
    · by_cases zero : operation.call.target setup manager.world = 0
      · rw [outcome.protos_eq (spares loads zero)]
        exact reserved.slot
      · rcases outcome.protos_cases loads with same | ⟨new, -, -, -, elsewhere⟩
        · rw [same]
          exact reserved.slot
        · rw [elsewhere 0 (Ne.symm zero)]
          exact reserved.slot
  · intro key self caller
    rcases operate_cases tracked.sited.started stepped with
      ⟨-, sameWorld, sameIds⟩ | ⟨loads, recorded, ended, -, -, outcome⟩
    · rw [sameWorld] at caller
      rw [sameIds]
      exact reserved.callers caller
    · rw [recorded]
      rcases outcome.callers_cases caller with old | ⟨rfl, name, desc, read⟩
      · rcases reserved.callers old with ⟨id, known, positive⟩
        refine ⟨id, ?_, positive⟩
        rw [List.getElem?_append_left (List.getElem?_eq_some_iff.mp known).1, known]
      · refine ⟨operation.call.target setup manager.world, ?_, ?_⟩
        · rw [← tracked.counted, List.getElem?_concat_length]
        · intro zero
          have nothing := spares loads zero
          rw [storesNothing, read] at nothing
          cases nothing

/-- If the id zero is still reserved, the operation has left it alone. -/
theorem Reserved.spares (tracked : Tracked setup manager)
    (stepped : ProtoManager.operate setup manager operation = some next)
    (reserved : Reserved setup next) : SparesZero setup manager operation := by
  intro loads zero
  rcases operate_cases tracked.sited.started stepped with
    ⟨skips, -, -⟩ | ⟨-, recorded, ended, notAbort, notFault, outcome⟩
  · rw [loads] at skips
    cases skips
  · rw [zero] at recorded
    have noCaller (name : Bytes)
        (stored : callerOf setup next.world (.string name) = some manager.world.nextSelf) :
        False := by
      rcases reserved.callers stored with ⟨id, known, nonzero⟩
      rw [recorded, ← tracked.counted, List.getElem?_concat_length] at known
      exact nonzero (Option.some.inj known).symm
    have slot := reserved.slot
    generalize next.world = after at outcome slot noCaller
    cases outcome with
    | undescribed nothing => simp [storesNothing, nothing]
    | unconstructed => exact absurd rfl notAbort
    | unbound read constructs missing => simp [storesNothing, read, missing]
    | @loaded name isMaker desc args registry unpackRef read =>
        rcases begun_eq setup manager.world name isMaker with ⟨globals, stored⟩
        have here := (install_found loads
          ⟨manager.world.nextSelf, operation.call.target setup manager.world, args, name, unpackRef,
            isMaker⟩ registry globals (manager.world.nextSelf + 1)).1
        rw [zero] at here
        rw [stored, zero, here] at slot
        have same := congrArg NetProtocol.self (Option.some.inj slot)
        have older := tracked.sited.older (List.getElem?_eq_getElem tracked.sited.started)
        exact absurd same (Nat.zero_lt_of_lt older).ne'
    | @refused name isMaker desc more result read binds unresolved =>
        cases isMaker with
        | true => simp [storesNothing, read, unresolved]
        | false =>
            apply (noCaller name _).elim
            exact (callerOf_begun setup manager.world name false (.string name)).trans
              (if_pos ⟨rfl, rfl⟩)

end Run

end ProtoManager

end SimpleModule
