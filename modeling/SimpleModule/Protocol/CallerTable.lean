import SimpleModule.Protocol.Load

/-!
# The closures of the caller table

The closures in the caller table point to protocol objects.  The table is keyed by
function names and the list of protocols by ids: `update_protocol` deletes the object of
an id, but stores a closure for the new object under the new name only, and only if the
new file is not implemented here.  A closure under the old name then points to a deleted
object.

`Registers` says what a successful call does.  The closures point to registered objects
in every state of a run exactly if every update of an object whose closure is in the
caller table loads a file with the same name and the same role.
-/

namespace SimpleModule

open Octets Exits Runs

namespace NetProtocol

variable {setup : Setup} {file : DescFile} {world after : World} {proto bound : NetProtocol}

theorem bindFunc_ret (returns : bindFunc setup proto world = (.ret (some bound), after)) :
    after = world ∧ ∃ unpackRef, bound = { proto with unpackRef := unpackRef } := by
  rcases entry : makerFunc setup world proto.packFuncName with _ | handler
  · rcases present : defaultConstructor world with _ | constructor
    · simp only [bindFunc, Program.bind_apply, Program.get_apply, entry, present] at returns
      split_ifs at returns with already
      · cases returns
        exact ⟨rfl, _, rfl⟩
      · cases returns
    · simp only [bindFunc, Program.bind_apply, Program.get_apply, entry, present] at returns
      split_ifs at returns with callable
      · cases returns
        exact ⟨rfl, _, rfl⟩
      · cases returns
  · simp only [bindFunc, Program.bind_apply, Program.get_apply, entry] at returns
    cases returns
    exact ⟨rfl, _, rfl⟩

/-- The state after the function of a protocol has been processed. -/
def functionStored (setup : Setup) (proto : NetProtocol) (world : World) : World :=
  if proto.isMaker then world else storeClosure setup proto.packFuncName proto.self world

theorem funcProc_ret (returns : funcProc setup proto world = (.ret (some bound), after)) :
    after = functionStored setup proto world ∧
      ∃ unpackRef, bound = { proto with unpackRef := unpackRef } := by
  unfold funcProc at returns
  unfold functionStored
  split_ifs at returns ⊢ with isMaker
  · exact bindFunc_ret returns
  · cases returns
    exact ⟨rfl, _, rfl⟩

theorem load_ret {new : NetProtocol}
    (returns : proto.load setup file world = (.ret (some new), after)) :
    new.self = proto.self ∧ new.id = proto.id ∧
      (∃ desc, described setup file = some (new.packFuncName, new.isMaker, desc)) ∧
      ∃ registry, after = { functionStored setup new world with args := registry } := by
  rcases load_eq_some returns with
    ⟨name, isMaker, desc, bound, stored, args, registry, read, processed, -, rfl, rfl⟩
  rcases funcProc_ret processed with ⟨rfl, unpackRef, rfl⟩
  exact ⟨rfl, rfl, ⟨desc, read⟩, registry, rfl⟩

end NetProtocol

namespace ProtoManager

open NetProtocol

/-- The object of the closure under a key of the caller table. -/
def callerOf (setup : Setup) (world : World) (key : LuaKey) : Option ℕ :=
  ((world.global setup.forCaller).field key).closureSelf

theorem global_setGlobal (world : World) (name : Bytes) (value : LuaValue) :
    (world.setGlobal name value).global name = value := by
  simp [World.global, World.setGlobal, LuaValue.field_setField]

theorem callerOf_storeClosure (setup : Setup) (name : Bytes) (self : ℕ) (world : World)
    (key : LuaKey) :
    callerOf setup (storeClosure setup name self world) key =
      if key = .string name then some self else callerOf setup world key := by
  unfold callerOf storeClosure
  split
  · rename_i fields isTable
    rw [global_setGlobal, LuaValue.field_setField, isTable]
    split_ifs with named
    · rfl
    · rfl
  · rename_i noTable
    rw [global_setGlobal, LuaValue.field_setField]
    split_ifs with named
    · rfl
    · have empty : (world.global setup.forCaller).field key = .nil := by
        unfold LuaValue.field
        split
        · rename_i fields isTable
          exact absurd isTable (noTable fields)
        · rfl
      rw [empty]
      rfl

theorem callerOf_functionStored (setup : Setup) (proto : NetProtocol) (world : World)
    (key : LuaKey) :
    callerOf setup (functionStored setup proto world) key =
      if proto.isMaker = false ∧ key = .string proto.packFuncName then some proto.self
      else callerOf setup world key := by
  unfold functionStored
  cases proto.isMaker with
  | true => simp
  | false => simp [callerOf_storeClosure]

theorem protos_functionStored (setup : Setup) (proto : NetProtocol) (world : World) :
    (functionStored setup proto world).protos = world.protos ∧
      (functionStored setup proto world).nextSelf = world.nextSelf := by
  unfold functionStored storeClosure
  split_ifs
  · exact ⟨rfl, rfl⟩
  · split
    · exact ⟨rfl, rfl⟩
    · exact ⟨rfl, rfl⟩

/-! ## Successful calls -/

/-- A call of the manager. -/
inductive Call
  | add (file : DescFile)
  | update (idArg : LuaValue) (file : DescFile)

def Call.file : Call → DescFile
  | add file => file
  | update _ file => file

/-- The id that a call registers a protocol under. -/
def Call.target (setup : Setup) (world : World) : Call → ℕ
  | add _ => world.protos.length
  | update idArg _ => updateId setup idArg

def Call.program (setup : Setup) : Call → Program World Bool
  | add file => addProtocol setup file
  | update idArg file => updateProtocol setup idArg file

/-- The state after a successful call. -/
def callStep (setup : Setup) (world : World) (call : Call) : Option World :=
  match call.program setup world with
  | (.ret true, after) => some after
  | _ => none

theorem callStep_eq_some {setup : Setup} {world after : World} {call : Call}
    (stepped : callStep setup world call = some after) :
    call.program setup world = (.ret true, after) := by
  unfold callStep at stepped
  split at stepped
  · rename_i last returned
    cases stepped
    exact returned
  · cases stepped

/-- A new object has been registered under an id. -/
structure Registers (setup : Setup) (world after : World) (id : ℕ) (new : NetProtocol) : Prop where
  here : after.protos[id]? = some new
  elsewhere : ∀ other, other ≠ id → after.protos[other]? = world.protos[other]?
  numbered : new.id = id
  self : new.self = world.nextSelf
  nextSelf : after.nextSelf = world.nextSelf + 1
  callers : ∀ key, callerOf setup after key =
    if new.isMaker = false ∧ key = .string new.packFuncName then some new.self
    else callerOf setup world key

variable {setup : Setup} {world after : World} {call : Call}

theorem loadNew_ret {id : ℕ} {file : DescFile} {install : NetProtocol → World → World}
    (returns : loadNew setup id file install world = (.ret true, after)) :
    ∃ new desc registry, described setup file = some (new.packFuncName, new.isMaker, desc) ∧
      new.self = world.nextSelf ∧ new.id = id ∧
      after = install new { functionStored setup new
        { world with nextSelf := world.nextSelf + 1 } with args := registry } := by
  rcases Program.bind_eq_ret_iff.mp returns with ⟨proto, started, created, returns⟩
  cases created
  rcases Program.bind_eq_ret_iff.mp returns with ⟨loaded, stored, loads, returns⟩
  cases loaded with
  | none => cases returns
  | some new =>
      rcases load_ret loads with ⟨self, numbered, ⟨desc, read⟩, registry, rfl⟩
      cases returns
      exact ⟨new, desc, registry, read, self, numbered, rfl⟩

theorem registers_of_install {id : ℕ} {new : NetProtocol} {registry : List ArgObj}
    {protos : List NetProtocol} {files : List (Option DescFile)} (self : new.self = world.nextSelf)
    (numbered : new.id = id) (here : protos[id]? = some new)
    (elsewhere : ∀ other, other ≠ id → protos[other]? = world.protos[other]?) :
    Registers setup world
      { functionStored setup new { world with nextSelf := world.nextSelf + 1 } with
        args := registry, protos := protos, files := files } id new := by
  refine ⟨here, elsewhere, numbered, self, ?_, ?_⟩
  · exact (protos_functionStored setup new { world with nextSelf := world.nextSelf + 1 }).2
  · exact callerOf_functionStored setup new { world with nextSelf := world.nextSelf + 1 }

/-- A successful call registers one new object, with the name and the role of its file. -/
theorem callStep_registers (stepped : callStep setup world call = some after) :
    ∃ new desc, described setup call.file = some (new.packFuncName, new.isMaker, desc) ∧
      Registers setup world after (call.target setup world) new := by
  have returns := callStep_eq_some stepped
  cases call with
  | add file =>
      simp only [Call.program, addProtocol, Program.bind_apply, Program.get_apply] at returns
      split_ifs at returns with started
      · rcases loadNew_ret returns with ⟨new, desc, registry, read, self, numbered, rfl⟩
        refine ⟨new, desc, read, registers_of_install self numbered ?_ ?_⟩
        · rw [(protos_functionStored setup new _).1]
          exact List.getElem?_concat_length
        · intro other different
          rw [(protos_functionStored setup new _).1]
          rcases Nat.lt_or_gt_of_ne different with earlier | later
          · exact List.getElem?_append_left earlier
          · have beyond : world.protos.length < other := later
            rw [List.getElem?_eq_none (by simpa using beyond), List.getElem?_eq_none beyond.le]
      · cases returns
  | update idArg file =>
      simp only [Call.program, updateProtocol] at returns
      split_ifs at returns with numeric
      · simp only [Program.bind_apply, Program.get_apply] at returns
        split_ifs at returns with known
        · rcases loadNew_ret returns with ⟨new, desc, registry, read, self, numbered, rfl⟩
          refine ⟨new, desc, read, registers_of_install self numbered ?_ ?_⟩
          · rw [(protos_functionStored setup new _).1]
            exact List.getElem?_set_self known
          · intro other different
            rw [(protos_functionStored setup new _).1]
            exact List.getElem?_set_ne (Ne.symm different)
        · cases returns
      · cases returns

/-! ## Runs -/

/-- Every closure of the caller table belongs to an object that is registered under its id. -/
def Live (setup : Setup) (world : World) : Prop :=
  ∀ key self, callerOf setup world key = some self →
    ∃ proto : NetProtocol, world.protos[proto.id]? = some proto ∧ proto.self = self

/--
An update of an object whose closure is in the caller table must load a file that
stores a closure under the same name.
-/
def KeepsCaller (setup : Setup) (world : World) (call : Call) : Prop :=
  ∀ old ∈ world.protos[call.target setup world]?,
    callerOf setup world (.string old.packFuncName) = some old.self →
    (described setup call.file).map (fun read => (read.1, read.2.1)) =
      some (old.packFuncName, false)

instance (setup : Setup) (world : World) (call : Call) : Decidable (KeepsCaller setup world call) :=
  inferInstanceAs (Decidable (∀ old ∈ world.protos[call.target setup world]?, _))

/-- Objects are where their ids say, at addresses of their own. -/
structure Addressed (world : World) : Prop where
  started : 0 < world.protos.length
  numbered : ∀ {id : ℕ} {proto : NetProtocol}, world.protos[id]? = some proto → proto.id = id
  older : ∀ {id : ℕ} {proto : NetProtocol}, world.protos[id]? = some proto →
    proto.self < world.nextSelf
  distinct : ∀ {id other : ℕ} {first second : NetProtocol}, world.protos[id]? = some first →
    world.protos[other]? = some second → first.self = second.self → id = other

/-- The closures of registered objects stand under their names, on the calling side only. -/
structure Sited (setup : Setup) (world : World) : Prop extends Addressed world where
  created : ∀ {key : LuaKey} {self : ℕ}, callerOf setup world key = some self →
    self < world.nextSelf
  named : ∀ {key : LuaKey} {id : ℕ} {proto : NetProtocol},
    callerOf setup world key = some proto.self → world.protos[id]? = some proto →
    key = .string proto.packFuncName
  calling : ∀ {key : LuaKey} {id : ℕ} {proto : NetProtocol},
    callerOf setup world key = some proto.self → world.protos[id]? = some proto →
    proto.isMaker = false

theorem addressed_init (args : List ArgObj) (globals : List (LuaKey × LuaValue)) :
    Addressed (.init args globals) := by
  have only {id : ℕ} {proto : NetProtocol}
      (found : (World.init args globals).protos[id]? = some proto) :
      id = 0 ∧ proto = ⟨0, 0, [], [], none, false⟩ := by
    cases id with
    | zero =>
        cases found
        exact ⟨rfl, rfl⟩
    | succ id => simp [World.init] at found
  refine ⟨Nat.one_pos, ?_, ?_, ?_⟩
  · intro id proto found
    rcases only found with ⟨rfl, rfl⟩
    rfl
  · intro id proto found
    rcases only found with ⟨rfl, rfl⟩
    exact Nat.one_pos
  · intro id other first second foundFirst foundSecond same
    rw [(only foundFirst).1, (only foundSecond).1]

theorem sited_init (args : List ArgObj) {globals : List (LuaKey × LuaValue)}
    (none : ∀ key, callerOf setup (.init args globals) key = none) :
    Sited setup (.init args globals) := by
  refine ⟨addressed_init args globals, ?_, ?_, ?_⟩
  · intro key self caller
    simp [none] at caller
  · intro key id proto caller
    simp [none] at caller
  · intro key id proto caller
    simp [none] at caller

section Register

variable {id : ℕ} {new : NetProtocol}

theorem Registers.found (registers : Registers setup world after id new) {other : ℕ}
    {proto : NetProtocol} (found : after.protos[other]? = some proto) :
    other = id ∧ proto = new ∨ other ≠ id ∧ world.protos[other]? = some proto := by
  by_cases same : other = id
  · rw [same, registers.here] at found
    exact .inl ⟨same, (Option.some.inj found).symm⟩
  · rw [registers.elsewhere other same] at found
    exact .inr ⟨same, found⟩

theorem Registers.caller (registers : Registers setup world after id new) {key : LuaKey} {self : ℕ}
    (caller : callerOf setup after key = some self) :
    new.isMaker = false ∧ key = .string new.packFuncName ∧ self = new.self ∨
      ¬(new.isMaker = false ∧ key = .string new.packFuncName) ∧
        callerOf setup world key = some self := by
  rw [registers.callers key] at caller
  split_ifs at caller with stored
  · exact .inl ⟨stored.1, stored.2, (Option.some.inj caller).symm⟩
  · exact .inr ⟨stored, caller⟩

theorem Addressed.register (addressed : Addressed world)
    (registers : Registers setup world after id new) : Addressed after := by
  have self := registers.self
  have nextSelf := registers.nextSelf
  refine ⟨?_, ?_, ?_, ?_⟩
  · exact Nat.zero_lt_of_lt (List.getElem?_eq_some_iff.mp registers.here).1
  · intro other proto found
    rcases registers.found found with ⟨rfl, rfl⟩ | ⟨-, old⟩
    · exact registers.numbered
    · exact addressed.numbered old
  · intro other proto found
    rcases registers.found found with ⟨rfl, rfl⟩ | ⟨-, old⟩
    · omega
    · have older := addressed.older old
      omega
  · intro first second ours theirs foundFirst foundSecond same
    rcases registers.found foundFirst with ⟨rfl, rfl⟩ | ⟨-, oldFirst⟩
    · rcases registers.found foundSecond with ⟨rfl, rfl⟩ | ⟨-, oldSecond⟩
      · rfl
      · have older := addressed.older oldSecond
        omega
    · rcases registers.found foundSecond with ⟨rfl, rfl⟩ | ⟨-, oldSecond⟩
      · have older := addressed.older oldFirst
        omega
      · exact addressed.distinct oldFirst oldSecond same

/-- The closure under a key belongs to the new object, or to an old one as before. -/
theorem Sited.caller_cases (sited : Sited setup world)
    (registers : Registers setup world after id new) {key : LuaKey} {other : ℕ}
    {proto : NetProtocol} (caller : callerOf setup after key = some proto.self)
    (found : after.protos[other]? = some proto) :
    proto = new ∧ new.isMaker = false ∧ key = .string new.packFuncName ∨
      world.protos[other]? = some proto ∧ callerOf setup world key = some proto.self := by
  have self := registers.self
  rcases registers.found found with ⟨rfl, rfl⟩ | ⟨-, old⟩
  · rcases registers.caller caller with ⟨isCaller, stored, -⟩ | ⟨-, earlier⟩
    · exact .inl ⟨rfl, isCaller, stored⟩
    · have older := sited.created earlier
      omega
  · rcases registers.caller caller with ⟨-, -, same⟩ | ⟨-, earlier⟩
    · have older := sited.older old
      omega
    · exact .inr ⟨old, earlier⟩

theorem Sited.register (sited : Sited setup world)
    (registers : Registers setup world after id new) : Sited setup after := by
  have self := registers.self
  have nextSelf := registers.nextSelf
  refine ⟨sited.toAddressed.register registers, ?_, ?_, ?_⟩
  · intro key other caller
    rcases registers.caller caller with ⟨-, -, rfl⟩ | ⟨-, old⟩
    · omega
    · have older := sited.created old
      omega
  · intro key other proto caller found
    rcases sited.caller_cases registers caller found with ⟨rfl, -, stored⟩ | ⟨old, earlier⟩
    · exact stored
    · exact sited.named earlier old
  · intro key other proto caller found
    rcases sited.caller_cases registers caller found with ⟨rfl, isCaller, -⟩ | ⟨old, earlier⟩
    · exact isCaller
    · exact sited.calling earlier old

/-- An object that is replaced must give its place in the caller table to the new one. -/
theorem Live.register (sited : Sited setup world) (live : Live setup world)
    (registers : Registers setup world after id new)
    (kept : ∀ old, world.protos[id]? = some old →
      callerOf setup world (.string old.packFuncName) = some old.self →
      new.isMaker = false ∧ new.packFuncName = old.packFuncName) : Live setup after := by
  intro key self caller
  rcases registers.caller caller with ⟨_, _, rfl⟩ | ⟨notStored, earlier⟩
  · exact ⟨new, registers.numbered ▸ registers.here, rfl⟩
  · rcases live key self earlier with ⟨proto, found, rfl⟩
    by_cases replaced : proto.id = id
    · have name := sited.named earlier found
      subst name
      rcases kept proto (replaced ▸ found) earlier with ⟨isCaller, sameName⟩
      exact absurd ⟨isCaller, by rw [sameName]⟩ notStored
    · exact ⟨proto, (registers.elsewhere _ replaced).trans found, rfl⟩

/-- If the closures are still live, a replaced object has given its place to the new one. -/
theorem Live.kept (sited : Sited setup world) (live : Live setup after)
    (registers : Registers setup world after id new) {old : NetProtocol}
    (found : world.protos[id]? = some old)
    (caller : callerOf setup world (.string old.packFuncName) = some old.self) :
    new.isMaker = false ∧ new.packFuncName = old.packFuncName := by
  by_contra lost
  have notStored :
      ¬(new.isMaker = false ∧ LuaKey.string old.packFuncName = .string new.packFuncName) := by
    rintro ⟨isCaller, sameName⟩
    exact lost ⟨isCaller, (LuaKey.string.inj sameName).symm⟩
  have stale : callerOf setup after (.string old.packFuncName) = some old.self := by
    rw [registers.callers, if_neg notStored, caller]
  rcases live _ _ stale with ⟨proto, present, same⟩
  rcases registers.found present with ⟨_, rfl⟩ | ⟨elsewhere, earlier⟩
  · have := sited.older found
    have := registers.self
    omega
  · exact elsewhere (sited.distinct earlier found same)

end Register

/-- What is left of a call that does not succeed: at most a closure for the object it has made. -/
structure Lingers (setup : Setup) (world after : World) : Prop where
  protos : after.protos = world.protos
  files : after.files = world.files
  nextSelf : world.nextSelf ≤ after.nextSelf
  callers : ∀ {key : LuaKey} {self : ℕ}, callerOf setup after key = some self →
    callerOf setup world key = some self ∨ self = world.nextSelf ∧ self < after.nextSelf

theorem Addressed.linger (addressed : Addressed world) (lingers : Lingers setup world after) :
    Addressed after := by
  have nextSelf := lingers.nextSelf
  constructor
  · rw [lingers.protos]
    exact addressed.started
  · rw [lingers.protos]
    exact addressed.numbered
  · rw [lingers.protos]
    intro id proto found
    exact (addressed.older found).trans_le nextSelf
  · rw [lingers.protos]
    exact addressed.distinct

/-- The closure of an object that was not registered is no closure of a registered one. -/
theorem Sited.linger (sited : Sited setup world) (lingers : Lingers setup world after) :
    Sited setup after := by
  have earlier {key : LuaKey} {id : ℕ} {proto : NetProtocol}
      (caller : callerOf setup after key = some proto.self)
      (found : world.protos[id]? = some proto) : callerOf setup world key = some proto.self := by
    rcases lingers.callers caller with old | ⟨made, -⟩
    · exact old
    · have older := sited.older found
      omega
  refine ⟨sited.toAddressed.linger lingers, ?_, ?_, ?_⟩
  · intro key self caller
    rcases lingers.callers caller with old | ⟨-, made⟩
    · exact (sited.created old).trans_le lingers.nextSelf
    · exact made
  · rw [lingers.protos]
    intro key id proto caller found
    exact sited.named (earlier caller found) found
  · rw [lingers.protos]
    intro key id proto caller found
    exact sited.calling (earlier caller found) found

/--
The closures of the caller table are live in every state of a run of successful calls
exactly if every call keeps the closure of the object that it replaces.
-/
theorem live_iff_keepsCaller (args : List ArgObj) {globals : List (LuaKey × LuaValue)}
    (none : ∀ key, callerOf setup (.init args globals) key = none) {calls : List Call}
    {final : World} (succeeds : run (callStep setup) (.init args globals) calls = some final) :
    StatesMeet (callStep setup) (Live setup) (.init args globals) calls ↔
      StepsMeet (callStep setup) (KeepsCaller setup) (.init args globals) calls := by
  have initial := sited_init args none
  constructor
  · intro live
    have sited :
        StatesMeet (callStep setup) (Sited setup) (.init args globals) calls := by
      apply statesMeet_of_stepsMeet _ initial (stepsMeet_of_run succeeds)
      intro world call after sited _ stepped
      rcases callStep_registers stepped with ⟨new, desc, _, registers⟩
      exact sited.register registers
    apply stepsMeet_of_statesMeet _ (sited.and live) (stepsMeet_of_run succeeds)
    intro world call before success later old found caller
    rcases Option.isSome_iff_exists.mp success with ⟨after, stepped⟩
    rcases callStep_registers stepped with ⟨new, desc, read, registers⟩
    rcases (later after stepped).2.kept before.1 registers found caller with ⟨isCaller, sameName⟩
    rw [read, Option.map_some, isCaller, sameName]
  · intro keeps
    have liveInit : Live setup (.init args globals) := by
      intro key self caller
      simp [none] at caller
    have both : StatesMeet (callStep setup) (fun world => Sited setup world ∧ Live setup world)
        (.init args globals) calls := by
      apply statesMeet_of_stepsMeet _ ⟨initial, liveInit⟩ keeps
      intro world call after before kept stepped
      rcases callStep_registers stepped with ⟨new, desc, read, registers⟩
      refine ⟨before.1.register registers, before.2.register before.1 registers ?_⟩
      intro old found caller
      have again := kept old found caller
      rw [read, Option.map_some, Option.some.injEq, Prod.mk.injEq] at again
      exact ⟨again.2, again.1⟩
    exact both.imp fun meets => meets.2

/-- A description without arguments. -/
def noArgs (path : String) : DescFile :=
  ⟨ofString path, .returns (.table [(.string (ofString "arg_list"), .table [])])⟩

def clientSide : Setup :=
  ⟨.client, ofString "for_maker", ofString "for_caller", noNumerals, fun _ _ => .nil⟩

theorem live_after_reload :
    StatesMeet (callStep clientSide) (Live clientSide) (.init initArgs [])
      [.add (noArgs "pto/s_a.pto"), .update (.number 1) (noArgs "pto/s_a.pto")] := by
  have succeeds : (run (callStep clientSide) (.init initArgs [])
      [.add (noArgs "pto/s_a.pto"), .update (.number 1) (noArgs "pto/s_a.pto")]).isSome = true := by
    decide +kernel
  rcases Option.isSome_iff_exists.mp succeeds with ⟨final, reached⟩
  apply (live_iff_keepsCaller initArgs (fun _ => rfl) reached).mpr
  decide +kernel

/-- An update to another name leaves the closure of the deleted object under the old one. -/
theorem not_live_after_rename :
    ∃ world, run (callStep clientSide) (.init initArgs [])
        [.add (noArgs "pto/s_a.pto"), .update (.number 1) (noArgs "pto/s_b.pto")] = some world ∧
      ¬Live clientSide world := by
  have outcome : (run (callStep clientSide) (.init initArgs [])
      [.add (noArgs "pto/s_a.pto"), .update (.number 1) (noArgs "pto/s_b.pto")]).map
        (fun world => (callerOf clientSide world (.string (ofString "s_a")),
          world.protos.map NetProtocol.self)) = some (some 1, [0, 2]) := by
    decide +kernel
  rcases Option.map_eq_some_iff.mp outcome with ⟨world, reached, seen⟩
  rw [Prod.mk.injEq] at seen
  refine ⟨world, reached, ?_⟩
  intro live
  rcases live _ _ seen.1 with ⟨proto, found, self⟩
  have member : proto.self ∈ world.protos.map NetProtocol.self :=
    List.mem_map_of_mem (List.mem_of_getElem? found)
  rw [seen.2, self] at member
  exact absurd member (by decide)

end ProtoManager

end SimpleModule
