import SimpleModule.Protocol.Agreement
import SimpleModule.Protocol.CallerTable

/-!
# What a failed call leaves behind

`load` stores the closure of a protocol before it looks at the argument list, and the loop
over the arguments registers the formats of arrays one by one.  Nothing of this is taken
back if a later argument is refused.  The format of an array with an element type that is
not registered is used before the assertion that it is there.

`LoadOutcome` lists all outcomes of a load.  `Reported` is what one would expect of a call
that does not succeed, and `Clean` is the exact condition for it.
-/

namespace SimpleModule

open Octets Exits Runs

namespace NetProtocol

/-! ## The argument list -/

/-- The names that are known once an array has been registered. -/
def withArray (known : Bytes → Bool) (text : Bytes) : Bool :=
  known text || cString text = ofString "array"

/-- The ways in which an argument list is refused. -/
inductive ArgsRefusal
  | rejects
  | raises
  | faults
  deriving Repr, DecidableEq

/-- What the loop over the entries ends with. -/
def ArgsRefusal.exit {α : Type} : ArgsRefusal → Exit (Option α)
  | rejects => .ret none
  | raises => .raise
  | faults => .fault

theorem ArgsRefusal.exit_injective {α : Type} :
    Function.Injective (ArgsRefusal.exit : ArgsRefusal → Exit (Option α)) := by
  intro first second same
  cases first <;> cases second <;> first | rfl | cases same

theorem ArgsRefusal.exit_ne_some {α : Type} (refusal : ArgsRefusal) (value : α) :
    refusal.exit ≠ .ret (some value) := by
  cases refusal <;> nofun

theorem ArgsRefusal.map_exit {α β : Type} (refusal : ArgsRefusal) (change : α → β) :
    refusal.exit.map (Option.map change) = refusal.exit := by
  cases refusal <;> rfl

/-- How a list is refused, if it is: by its first entry that does not name a known type. -/
def refusalOf (numerals : Numerals) : (known : Bytes → Bool) → List LuaValue → Option ArgsRefusal
  | _, [] => none
  | known, desc :: rest =>
      match argRequest numerals desc with
      | .rejected => some .rejects
      | .unnamed => some .raises
      | .named text => if known text then refusalOf numerals known rest else some .rejects
      | .array text _ =>
          if known text then refusalOf numerals (withArray known) rest else some .faults

/-- All entries name known types. -/
def resolves (numerals : Numerals) (known : Bytes → Bool) (entries : List LuaValue) : Bool :=
  (refusalOf numerals known entries).isNone

/-- All entries name known types, or the first that does not is refused before any array. -/
def harmless (numerals : Numerals) : (known : Bytes → Bool) → List LuaValue → Bool
  | _, [] => true
  | known, desc :: rest =>
      match argRequest numerals desc with
      | .rejected => true
      | .unnamed => true
      | .named text => !known text || harmless numerals known rest
      | .array text _ => known text && resolves numerals (withArray known) rest

def isKnown (args : List ArgObj) (text : Bytes) : Bool := (getArg args text).isSome

/-- The entries of the argument list, if there is one. -/
def argEntries (desc : LuaValue) : Option (List LuaValue) :=
  let argList := desc.field (.string (ofString "arg_list"))
  if argList.isTable then
    some ((List.range argList.objlen).map fun i : ℕ => argList.index (i + 1))
  else none

/-- How the argument list is refused, if it is. -/
def argsRefusal (numerals : Numerals) (args : List ArgObj) (desc : LuaValue) :
    Option ArgsRefusal :=
  match argEntries desc with
  | none => some .rejects
  | some entries => refusalOf numerals (isKnown args) entries

def argsResolve (numerals : Numerals) (args : List ArgObj) (desc : LuaValue) : Bool :=
  (argsRefusal numerals args desc).isNone

def argsHarmless (numerals : Numerals) (args : List ArgObj) (desc : LuaValue) : Bool :=
  match argEntries desc with
  | none => true
  | some entries => harmless numerals (isKnown args) entries

section Arguments

variable {numerals : Numerals} {args : List ArgObj} {desc : LuaValue}

theorem isKnown_append {arg : ArgObj} (isArray : arg.typeName = ofString "array") :
    isKnown (args ++ [arg]) = withArray (isKnown args) := by
  funext text
  simp only [isKnown, withArray, getArg, List.find?_append, Option.isSome_or]
  congr 1
  by_cases same : cString text = ofString "array"
  · simp [isArray, same]
  · simp [isArray, same, Ne.symm same]

theorem arglistProc_eq (numerals : Numerals) (desc : LuaValue) :
    arglistProc numerals desc =
      match argEntries desc with
      | none => pure none
      | some entries => readArgs numerals entries := by
  unfold arglistProc argEntries
  by_cases isTable : (desc.field (.string (ofString "arg_list"))).isTable = true
  · simp only [if_pos isTable]
  · simp only [if_neg isTable]

/-- A refusal later in the list is one of the whole list. -/
theorem ArgsRefusal.bind {program : Program (List ArgObj) (Option (List ArgObj))}
    {refusal : ArgsRefusal} {args registry : List ArgObj} {arg : ArgObj}
    (returned : program args = (refusal.exit, registry)) :
    (program >>= fun list =>
      match list with
      | none => pure none
      | some list => pure (some (arg :: list))) args = (refusal.exit, registry) := by
  rw [Program.bind_apply, returned]
  cases refusal with
  | rejects => rfl
  | raises => rfl
  | faults => rfl

/-- The names that are known decide how the loop ends; what it has registered before stays. -/
theorem readArgs_cases (numerals : Numerals) (entries : List LuaValue) (args : List ArgObj) :
    (refusalOf numerals (isKnown args) entries = none ∧
      ∃ list registry, readArgs numerals entries args = (.ret (some list), registry)) ∨
    (∃ refusal, refusalOf numerals (isKnown args) entries = some refusal ∧
      ∃ more, readArgs numerals entries args = (refusal.exit, args ++ more) ∧
        (harmless numerals (isKnown args) entries = true ↔ more = [] ∧ refusal ≠ .faults)) := by
  induction entries generalizing args with
  | nil => exact .inl ⟨rfl, [], args, rfl⟩
  | cons desc rest ih =>
      have turn := readArg_eq numerals desc args
      unfold refusalOf harmless
      cases request : argRequest numerals desc with
      | rejected =>
          rw [request] at turn
          right
          refine ⟨.rejects, rfl, [], ?_, by simp⟩
          rw [readArgs, Program.bind_of_ret turn, List.append_nil]
          rfl
      | unnamed =>
          rw [request] at turn
          right
          refine ⟨.raises, rfl, [], ?_, by simp⟩
          rw [readArgs, Program.bind_apply, turn, List.append_nil]
          rfl
      | named text =>
          rw [request] at turn
          rcases found : getArg args text with _ | arg
          · right
            refine ⟨.rejects, by simp [isKnown, found], [], ?_, by simp [isKnown, found]⟩
            rw [ArgRequest.answer, found] at turn
            rw [readArgs, Program.bind_of_ret turn, List.append_nil]
            rfl
          · have known : isKnown args text = true := by simp [isKnown, found]
            rw [ArgRequest.answer, found] at turn
            rw [readArgs, Program.bind_of_ret turn]
            simp only [known, if_true, Bool.not_true, Bool.false_or]
            rcases ih args with ⟨all, list, registry, listed⟩ |
              ⟨refusal, refused, more, listed, exact⟩
            · exact .inl ⟨all, arg :: list, registry, Program.bind_of_ret listed⟩
            · exact .inr ⟨refusal, refused, more, ArgsRefusal.bind listed, exact⟩
      | array text size =>
          rw [request] at turn
          rcases found : getArg args text with _ | base
          · right
            refine ⟨.faults, by simp [isKnown, found], [], ?_, by simp [isKnown, found]⟩
            rw [ArgRequest.answer, found] at turn
            rw [readArgs, Program.bind_of_fault turn, List.append_nil]
            rfl
          · have known : isKnown args text = true := by simp [isKnown, found]
            have later := ih (args ++ [arrayArg text base size])
            rw [isKnown_append rfl] at later
            rw [ArgRequest.answer, found] at turn
            rw [readArgs, Program.bind_of_ret turn]
            simp only [known, if_true, Bool.true_and]
            rcases later with ⟨all, list, registry, listed⟩ |
              ⟨refusal, refused, more, listed, -⟩
            · exact .inl ⟨all, arrayArg text base size :: list, registry,
                Program.bind_of_ret listed⟩
            · right
              refine ⟨refusal, refused, arrayArg text base size :: more, ?_, ?_⟩
              · rw [List.append_assoc, List.singleton_append] at listed
                exact ArgsRefusal.bind listed
              · simp [resolves, refused]

theorem arglistProc_cases (numerals : Numerals) (desc : LuaValue) (args : List ArgObj) :
    (argsRefusal numerals args desc = none ∧
      ∃ list registry, arglistProc numerals desc args = (.ret (some list), registry)) ∨
    (∃ refusal, argsRefusal numerals args desc = some refusal ∧
      ∃ more, arglistProc numerals desc args = (refusal.exit, args ++ more) ∧
        (argsHarmless numerals args desc = true ↔ more = [] ∧ refusal ≠ .faults)) := by
  rw [arglistProc_eq, argsRefusal, argsHarmless]
  rcases argEntries desc with _ | entries
  · right
    refine ⟨.rejects, rfl, [], ?_, by simp⟩
    rw [List.append_nil]
    rfl
  · exact readArgs_cases numerals entries args

theorem harmless_of_resolves {known : Bytes → Bool} {entries : List LuaValue}
    (all : resolves numerals known entries = true) : harmless numerals known entries = true := by
  induction entries generalizing known with
  | nil => rfl
  | cons desc rest ih =>
      unfold resolves refusalOf at all
      unfold harmless
      cases request : argRequest numerals desc with
      | rejected => rfl
      | unnamed => rfl
      | named text =>
          rw [Bool.or_eq_true]
          by_cases found : known text = true
          · simp only [request, if_pos found] at all
            exact .inr (ih all)
          · exact .inl (by simpa using found)
      | array text size =>
          by_cases found : known text = true
          · simp only [request, if_pos found] at all
            rw [Bool.and_eq_true]
            exact ⟨found, all⟩
          · simp [request, found] at all

theorem argsHarmless_of_argsResolve (all : argsResolve numerals args desc = true) :
    argsHarmless numerals args desc = true := by
  unfold argsResolve argsRefusal at all
  unfold argsHarmless
  cases listed : argEntries desc with
  | none => rfl
  | some entries =>
      rw [listed] at all
      exact harmless_of_resolves all

end Arguments

/-! ## The function -/

/-- The constructor for default functions is called and gives something else. -/
def failsToConstruct (setup : Setup) (world : World) (name : Bytes) : Bool :=
  (makerFunc setup world name).isNone &&
    match defaultConstructor world with
    | some constructor => !(setup.callConstructor constructor name).isFunction
    | none => false

theorem bindFunc_cases (setup : Setup) (world : World) (proto : NetProtocol)
    (fresh : proto.unpackRef = none) :
    failsToConstruct setup world proto.packFuncName = true ∧
        bindFunc setup proto world = (.abort, world) ∨
      failsToConstruct setup world proto.packFuncName = false ∧
        (available setup world proto.packFuncName = true ∧
            (∃ handler, bindFunc setup proto world =
              (.ret (some { proto with unpackRef := some handler }), world)) ∨
          available setup world proto.packFuncName = false ∧
            bindFunc setup proto world = (.ret none, world)) := by
  rcases entry : makerFunc setup world proto.packFuncName with _ | handler
  · rcases present : defaultConstructor world with _ | constructor
    · simp [failsToConstruct, available, bindFunc, Program.bind_apply, entry, present, fresh]
    · cases callable : (setup.callConstructor constructor proto.packFuncName).isFunction with
      | true =>
          simp [failsToConstruct, available, bindFunc, Program.bind_apply, entry, present, callable]
      | false =>
          simp [failsToConstruct, available, bindFunc, Program.bind_apply, entry, present, callable]
  · simp [failsToConstruct, available, bindFunc, Program.bind_apply, entry]

end NetProtocol

namespace ProtoManager

open NetProtocol

/-! ## All outcomes of a load -/

/-- The state in which the function of a new object has been processed. -/
def begun (setup : Setup) (world : World) (name : Bytes) (isMaker : Bool) : World :=
  functionStored setup ⟨world.nextSelf, 0, [], name, none, isMaker⟩
    { world with nextSelf := world.nextSelf + 1 }

/-- What the load of a new object can do. -/
inductive LoadOutcome (setup : Setup) (world : World) (id : ℕ) (file : DescFile)
    (install : NetProtocol → World → World) : Exit Bool × World → Prop
  | undescribed (nothing : described setup file = none) :
      LoadOutcome setup world id file install
        (.ret false, { world with nextSelf := world.nextSelf + 1 })
  | unconstructed {name : Bytes} {desc : LuaValue}
      (read : described setup file = some (name, true, desc))
      (fails : failsToConstruct setup world name = true) :
      LoadOutcome setup world id file install
        (.abort, { world with nextSelf := world.nextSelf + 1 })
  | unbound {name : Bytes} {desc : LuaValue}
      (read : described setup file = some (name, true, desc))
      (constructs : failsToConstruct setup world name = false)
      (missing : available setup world name = false) :
      LoadOutcome setup world id file install
        (.ret false, { world with nextSelf := world.nextSelf + 1 })
  | loaded {name : Bytes} {isMaker : Bool} {desc : LuaValue} {args registry : List ArgObj}
      (unpackRef : Option LuaValue) (read : described setup file = some (name, isMaker, desc))
      (binds : isMaker = true → available setup world name = true ∧
        failsToConstruct setup world name = false)
      (bound : unpackRef.isSome = isMaker)
      (resolve : argsResolve setup.numerals world.args desc = true)
      (listed : arglistProc setup.numerals desc world.args = (.ret (some args), registry)) :
      LoadOutcome setup world id file install
        (.ret true, install ⟨world.nextSelf, id, args, name, unpackRef, isMaker⟩
          { begun setup world name isMaker with args := registry })
  | refused {name : Bytes} {isMaker : Bool} {desc : LuaValue} {more : List ArgObj}
      {result : Exit Bool}
      (read : described setup file = some (name, isMaker, desc))
      (binds : isMaker = true → available setup world name = true ∧
        failsToConstruct setup world name = false)
      (unresolved : argsResolve setup.numerals world.args desc = false)
      (harmless : argsHarmless setup.numerals world.args desc = true ↔
        more = [] ∧ result ≠ .fault)
      (reports : result = .ret false ∨ result = .raise ∨ result = .fault) :
      LoadOutcome setup world id file install
        (result, { begun setup world name isMaker with args := world.args ++ more })

section Outcome

variable {setup : Setup} {world : World} {file : DescFile} {name : Bytes} {isMaker : Bool}
  {desc : LuaValue}

theorem begun_eq (setup : Setup) (world : World) (name : Bytes) (isMaker : Bool) :
    ∃ globals, begun setup world name isMaker =
      { world with globals := globals, nextSelf := world.nextSelf + 1 } := by
  unfold begun functionStored
  split_ifs
  · exact ⟨world.globals, rfl⟩
  · exact storeClosure_eq name world.nextSelf { world with nextSelf := world.nextSelf + 1 }

theorem args_begun : (begun setup world name isMaker).args = world.args := by
  rcases begun_eq setup world name isMaker with ⟨globals, stored⟩
  rw [stored]

/-- The load of a new object whose function has been processed. -/
theorem loadOutcome_of_funcProc (id : ℕ) (install : NetProtocol → World → World)
    (unpackRef : Option LuaValue) (read : described setup file = some (name, isMaker, desc))
    (binds : isMaker = true → available setup world name = true ∧
      failsToConstruct setup world name = false)
    (bound : unpackRef.isSome = isMaker)
    (function : funcProc setup ⟨world.nextSelf, id, [], name, none, isMaker⟩
        { world with nextSelf := world.nextSelf + 1 } =
      (.ret (some ⟨world.nextSelf, id, [], name, unpackRef, isMaker⟩),
        begun setup world name isMaker)) :
    LoadOutcome setup world id file install (loadNew setup id file install world) := by
  have load : loadNew setup id file install world =
      match arglistProc setup.numerals desc world.args with
      | (.ret (some args), registry) =>
          (.ret true, install ⟨world.nextSelf, id, args, name, unpackRef, isMaker⟩
            { begun setup world name isMaker with args := registry })
      | (.ret none, registry) =>
          (.ret false, { begun setup world name isMaker with args := registry })
      | (.raise, registry) => (.raise, { begun setup world name isMaker with args := registry })
      | (.abort, registry) => (.abort, { begun setup world name isMaker with args := registry })
      | (.fault, registry) =>
          (.fault, { begun setup world name isMaker with args := registry }) := by
    simp only [loadNew, create, Program.bind_apply, Program.get_apply, Program.modify_apply,
      Program.pure_apply, load_eq, read, procTable, withRole, function, Program.focus, args_begun]
    rcases arglistProc setup.numerals desc world.args with ⟨(_ | list) | _ | _ | _, registry⟩
    · rfl
    · rfl
    · rfl
    · rfl
    · rfl
  rw [load]
  rcases arglistProc_cases setup.numerals desc world.args with
    ⟨all, list, registry, listed⟩ | ⟨refusal, refused, more, listed, exact⟩
  · rw [listed]
    exact .loaded unpackRef read binds bound (by rw [argsResolve, all]; rfl) listed
  · rw [listed]
    have unresolved : argsResolve setup.numerals world.args desc = false := by
      rw [argsResolve, refused]
      rfl
    cases refusal with
    | rejects => exact .refused read binds unresolved (by simpa using exact) (.inl rfl)
    | raises => exact .refused read binds unresolved (by simpa using exact) (.inr (.inl rfl))
    | faults => exact .refused read binds unresolved (by simpa using exact) (.inr (.inr rfl))

theorem loadOutcome (setup : Setup) (world : World) (id : ℕ) (file : DescFile)
    (install : NetProtocol → World → World) :
    LoadOutcome setup world id file install (loadNew setup id file install world) := by
  rcases read : described setup file with _ | ⟨name, isMaker, desc⟩
  · have load : loadNew setup id file install world =
        (.ret false, { world with nextSelf := world.nextSelf + 1 }) := by
      simp [loadNew, create, Program.bind_apply, load_eq, read]
    rw [load]
    exact .undescribed read
  · cases isMaker with
    | false =>
        exact loadOutcome_of_funcProc id install none read (by simp) rfl rfl
    | true =>
        rcases bindFunc_cases setup { world with nextSelf := world.nextSelf + 1 }
          ⟨world.nextSelf, id, [], name, none, true⟩ rfl with
          ⟨fails, aborts⟩ | ⟨constructs, ⟨found, handler, binds⟩ | ⟨missing, nothing⟩⟩
        · have load : loadNew setup id file install world =
              (.abort, { world with nextSelf := world.nextSelf + 1 }) := by
            simp [loadNew, create, Program.bind_apply, load_eq, read, procTable, withRole, funcProc,
              aborts]
          rw [load]
          exact .unconstructed read fails
        · exact loadOutcome_of_funcProc id install (some handler) read
            (fun _ => ⟨found, constructs⟩) rfl binds
        · have load : loadNew setup id file install world =
              (.ret false, { world with nextSelf := world.nextSelf + 1 }) := by
            simp [loadNew, create, Program.bind_apply, load_eq, read, procTable, withRole, funcProc,
              nothing]
          rw [load]
          exact .unbound read constructs missing

end Outcome

/-! ## Calls -/

/-- The call gets as far as making a new object. -/
def Call.loads (setup : Setup) (world : World) : Call → Bool
  | add _ => true
  | update idArg _ => idArg.isNumber setup.numerals && updateId setup idArg < world.protos.length

/-- How a call registers an object. -/
def Call.install (setup : Setup) : Call → NetProtocol → World → World
  | add file, proto, world =>
      { world with protos := world.protos ++ [proto], files := world.files ++ [some file] }
  | update idArg file, proto, world =>
      { world with
        protos := world.protos.set (updateId setup idArg) proto
        files := world.files.set (updateId setup idArg) (some file) }

/-- The state after a call, in a script that goes on after failures and errors. -/
def attempt (setup : Setup) (world : World) (call : Call) : Option World :=
  match call.program setup world with
  | (.ret _, after) => some after
  | (.raise, after) => some after
  | _ => none

/-- Nothing of a failed call is left. -/
structure Untouched (setup : Setup) (before after : World) : Prop where
  protos : after.protos = before.protos
  caller : after.global setup.forCaller = before.global setup.forCaller
  args : after.args = before.args
  unbound : ∀ key, callerOf setup after key ≠ some before.nextSelf

/-- The call succeeds, or reports that it does not and leaves nothing. -/
def Reported (setup : Setup) (world : World) (outcome : Exit Bool × World) : Prop :=
  match outcome with
  | (.ret true, _) => True
  | (.ret false, after) => Untouched setup world after
  | (.raise, after) => Untouched setup world after
  | (.abort, _) => False
  | (.fault, _) => False

/--
On the calling side the arguments must resolve.  On the implementing side the function must
not come from a constructor that fails, and if there is one to bind, the arguments must be
refused before any array is registered, if at all, and not for an unresolved element.
-/
def loadsCleanly (setup : Setup) (world : World) (file : DescFile) : Bool :=
  match described setup file with
  | none => true
  | some (name, true, desc) =>
      !failsToConstruct setup world name &&
        (!available setup world name || argsHarmless setup.numerals world.args desc)
  | some (_, false, desc) => argsResolve setup.numerals world.args desc

def Call.Clean (setup : Setup) (world : World) (call : Call) : Prop :=
  call.loads setup world = true → loadsCleanly setup world call.file = true

section Calls

variable {setup : Setup} {world after : World} {call : Call}

theorem program_eq (started : 0 < world.protos.length) (call : Call) :
    call.program setup world =
      if call.loads setup world then
        loadNew setup (call.target setup world) call.file (call.install setup) world
      else (.ret false, world) := by
  cases call with
  | add file =>
      simp only [Call.program, addProtocol, Program.bind_apply, Program.get_apply, gt_iff_lt,
        started, if_true, Call.loads]
      rfl
  | update idArg file =>
      by_cases numeric : idArg.isNumber setup.numerals = true
      · by_cases known : updateId setup idArg < world.protos.length
        · simp only [Call.program, updateProtocol, Program.bind_apply, Program.get_apply, numeric,
            known, if_true, Call.loads, decide_true, Bool.and_self]
          rfl
        · simp [Call.program, updateProtocol, Program.bind_apply, numeric, known, Call.loads]
      · simp [Call.program, updateProtocol, numeric, Call.loads]

theorem callerOf_begun (setup : Setup) (world : World) (name : Bytes) (isMaker : Bool)
    (key : LuaKey) :
    callerOf setup (begun setup world name isMaker) key =
      if isMaker = false ∧ key = .string name then some world.nextSelf
      else callerOf setup world key :=
  callerOf_functionStored setup ⟨world.nextSelf, 0, [], name, none, isMaker⟩
    { world with nextSelf := world.nextSelf + 1 } key

theorem untouched_fresh (sited : Sited setup world) :
    Untouched setup world { world with nextSelf := world.nextSelf + 1 } := by
  refine ⟨rfl, rfl, rfl, ?_⟩
  intro key bound
  have older := sited.created bound
  omega

theorem untouched_refused_iff (sited : Sited setup world) (name : Bytes) (isMaker : Bool)
    (more : List ArgObj) :
    Untouched setup world
        { begun setup world name isMaker with args := world.args ++ more } ↔
      isMaker = true ∧ more = [] := by
  constructor
  · intro untouched
    constructor
    · by_contra caller
      rw [Bool.not_eq_true] at caller
      apply untouched.unbound (.string name)
      refine (callerOf_begun setup world name isMaker _).trans ?_
      rw [if_pos ⟨caller, rfl⟩]
    · exact List.self_eq_append_right.mp untouched.args.symm
  · rintro ⟨rfl, rfl⟩
    rw [List.append_nil]
    exact untouched_fresh sited

/-- What a call reports, in terms of its file. -/
theorem reported_loadNew_iff (sited : Sited setup world) (id : ℕ) (file : DescFile)
    (install : NetProtocol → World → World) :
    Reported setup world (loadNew setup id file install world) ↔
      loadsCleanly setup world file = true := by
  have outcome := loadOutcome setup world id file install
  generalize loadNew setup id file install world = result at outcome
  cases outcome with
  | undescribed nothing =>
      simp only [Reported, loadsCleanly, nothing, iff_true]
      exact untouched_fresh sited
  | unconstructed read fails => simp [Reported, loadsCleanly, read, fails]
  | unbound read constructs missing =>
      simp only [Reported, loadsCleanly, read, constructs, missing, Bool.not_false, Bool.true_or,
        Bool.and_self, iff_true]
      exact untouched_fresh sited
  | @loaded name isMaker desc args registry unpackRef read binds bound resolve listed =>
      cases isMaker with
      | true => simp [Reported, loadsCleanly, read, binds rfl, argsHarmless_of_argsResolve resolve]
      | false => simp [Reported, loadsCleanly, read, resolve]
  | @refused name isMaker desc more result read binds unresolved harmless reports =>
      have left := untouched_refused_iff sited name isMaker more
      cases isMaker with
      | true =>
          simp only [true_and] at left
          simp only [loadsCleanly, read, binds rfl, Bool.not_false, Bool.not_true, Bool.false_or,
            Bool.true_and, harmless]
          rcases reports with rfl | rfl | rfl
          · simpa [Reported] using left
          · simpa [Reported] using left
          · simp [Reported]
      | false =>
          simp only [Bool.false_eq_true, false_and, iff_false] at left
          simp only [loadsCleanly, read, unresolved, Bool.false_eq_true, iff_false]
          rcases reports with rfl | rfl | rfl
          · exact left
          · exact left
          · exact not_false

theorem attempt_eq_some (stepped : attempt setup world call = some after) :
    ∃ ended, call.program setup world = (ended, after) ∧
      ((∃ success, ended = .ret success) ∨ ended = .raise) := by
  unfold attempt at stepped
  split at stepped
  · rename_i success last returned
    cases stepped
    exact ⟨_, returned, .inl ⟨success, rfl⟩⟩
  · rename_i last raised
    cases stepped
    exact ⟨_, raised, .inr rfl⟩
  · cases stepped

/-- The call succeeds. -/
def Succeeds (setup : Setup) (world : World) (call : Call) : Prop :=
  (call.program setup world).1 = .ret true

instance (setup : Setup) (world : World) (call : Call) : Decidable (Succeeds setup world call) :=
  inferInstanceAs (Decidable (_ = _))

theorem lingers_of_not_succeeds (started : 0 < world.protos.length)
    (fails : ¬Succeeds setup world call) : Lingers setup world (call.program setup world).2 := by
  have same (nextSelf : ℕ) (later : world.nextSelf ≤ nextSelf) :
      Lingers setup world { world with nextSelf := nextSelf } :=
    ⟨rfl, rfl, later, .inl⟩
  rw [Succeeds] at fails
  rw [program_eq started] at fails ⊢
  split_ifs at fails ⊢
  · have outcome := loadOutcome setup world (call.target setup world) call.file (call.install setup)
    generalize loadNew setup (call.target setup world) call.file (call.install setup) world =
      result at outcome fails ⊢
    cases outcome with
    | undescribed => exact same _ (Nat.le_succ _)
    | unconstructed => exact same _ (Nat.le_succ _)
    | unbound => exact same _ (Nat.le_succ _)
    | loaded => exact absurd rfl fails
    | @refused name isMaker =>
        rcases begun_eq setup world name isMaker with ⟨globals, stored⟩
        have next : (begun setup world name isMaker).nextSelf = world.nextSelf + 1 := by rw [stored]
        refine ⟨by rw [stored], by rw [stored], next ▸ Nat.le_succ _, ?_⟩
        intro key self caller
        have bound : callerOf setup (begun setup world name isMaker) key = some self := caller
        rw [callerOf_begun] at bound
        split_ifs at bound
        · cases bound
          exact .inr ⟨rfl, next ▸ Nat.lt_succ_self _⟩
        · exact .inl bound
  · exact same _ le_rfl

theorem attempt_program (stepped : attempt setup world call = some after) :
    (call.program setup world).2 = after := by
  rcases attempt_eq_some stepped with ⟨ended, returned, -⟩
  rw [returned]

/-- What a call can do to the list of protocols. -/
theorem attempt_cases (started : 0 < world.protos.length)
    (stepped : attempt setup world call = some after) :
    Succeeds setup world call ∧ (∃ new, Registers setup world after (call.target setup world) new) ∨
      ¬Succeeds setup world call ∧ Lingers setup world after := by
  have returned := attempt_program stepped
  by_cases succeeds : Succeeds setup world call
  · have whole : call.program setup world = (.ret true, after) := Prod.ext succeeds returned
    have success : callStep setup world call = some after := by rw [callStep, whole]
    rcases callStep_registers success with ⟨new, -, -, registers⟩
    exact .inl ⟨succeeds, new, registers⟩
  · rw [← returned]
    exact .inr ⟨succeeds, lingers_of_not_succeeds started succeeds⟩

theorem Addressed.attempt (addressed : Addressed world)
    (stepped : attempt setup world call = some after) : Addressed after := by
  rcases attempt_cases addressed.started stepped with ⟨-, new, registers⟩ | ⟨-, lingers⟩
  · exact addressed.register registers
  · exact addressed.linger lingers

theorem Sited.attempt (sited : Sited setup world)
    (stepped : attempt setup world call = some after) : Sited setup after := by
  rcases attempt_cases sited.started stepped with ⟨-, new, registers⟩ | ⟨-, lingers⟩
  · exact sited.register registers
  · exact sited.linger lingers

theorem sited_of_run {args : List ArgObj} {globals : List (LuaKey × LuaValue)}
    (none : ∀ key, callerOf setup (.init args globals) key = none) {calls : List Call}
    (reached : run (attempt setup) (.init args globals) calls = some world) :
    Sited setup world := by
  have states : StatesMeet (attempt setup) (Sited setup) (.init args globals) calls := by
    apply statesMeet_of_stepsMeet _ (sited_init args none) (stepsMeet_of_run reached)
    intro state call next sited _ stepped
    exact sited.attempt stepped
  exact states.last reached

end Calls

end ProtoManager

end SimpleModule
