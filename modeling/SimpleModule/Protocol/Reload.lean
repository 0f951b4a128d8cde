import SimpleModule.Protocol.History

/-!
# Agreement of sides that reload protocols

`update_protocol` replaces the protocol of an id while the program runs, and a script may go
on after a call that fails.  A client and a server make the same calls of `add_protocol` and
`update_protocol`.  As long as each call succeeds on both sides or on neither, they agree on
every id: it has the same file, name and arguments on both sides, one of them implements it,
and that one has a function bound to it.

The registries need not be the same on the way: a load that fails on both sides may have
registered arrays on one of them only.  They still answer alike for every name but `array`,
which no file may use.
-/

namespace SimpleModule

open Octets Exits Runs

namespace NetProtocol

/-! ## Registries that differ in arrays -/

/-- Two registries have the same object for every name but that of arrays. -/
def SameTypes (left right : List ArgObj) : Prop :=
  ∀ text, cString text ≠ arrayName → getArg left text = getArg right text

theorem SameTypes.symm {left right : List ArgObj} (same : SameTypes left right) :
    SameTypes right left :=
  fun text other => (same text other).symm

theorem SameTypes.trans {first second third : List ArgObj} (before : SameTypes first second)
    (after : SameTypes second third) : SameTypes first third :=
  fun text other => (before text other).trans (after text other)

theorem GrowsByArrays.sameTypes {args after : List ArgObj} (grows : GrowsByArrays args after) :
    SameTypes args after := by
  rcases grows.append with ⟨more, rfl, arrays⟩
  intro text other
  rw [getArg, getArg, List.find?_append]
  have nothing : more.find? (fun arg => arg.typeName = cString text) = none := by
    rw [List.find?_eq_none]
    intro arg member named
    rw [decide_eq_true_iff, arrays arg member] at named
    exact other named.symm
  rw [nothing, Option.or_none]

/-- No entry of the argument list of a file uses the name of arrays. -/
def PlainTypes (setup : Setup) (file : DescFile) : Prop :=
  ∀ entry ∈ entriesOf setup file, ¬(argRequest setup.numerals entry).NamesArray

instance (request : ArgRequest) : Decidable request.NamesArray :=
  inferInstanceAs (Decidable (∃ text ∈ request.text, cString text = arrayName))

instance (setup : Setup) (file : DescFile) : Decidable (PlainTypes setup file) :=
  inferInstanceAs (Decidable (∀ entry ∈ entriesOf setup file, _))

section Arguments

variable {numerals : Numerals} {left right : List ArgObj}

theorem answer_of_sameTypes (same : SameTypes left right) {request : ArgRequest}
    (plain : ¬request.NamesArray) : (request.answer left).1 = (request.answer right).1 := by
  cases request with
  | rejected => rfl
  | unnamed => rfl
  | named text =>
      have found := same text fun array => plain ⟨text, rfl, array⟩
      rw [ArgRequest.answer, ArgRequest.answer, found]
  | array text size =>
      have found := same text fun array => plain ⟨text, rfl, array⟩
      rw [ArgRequest.answer, ArgRequest.answer, found]
      cases getArg right text with
      | none => rfl
      | some base => rfl

/-- The arguments that are read depend on the names that are looked up only. -/
theorem readArgs_of_sameTypes {entries : List LuaValue} (same : SameTypes left right)
    (plain : ∀ entry ∈ entries, ¬(argRequest numerals entry).NamesArray) :
    (readArgs numerals entries left).1 = (readArgs numerals entries right).1 := by
  induction entries generalizing left right with
  | nil => rfl
  | cons entry rest ih =>
      have leftGrows := growsByArrays_readArg numerals entry left
      have rightGrows := growsByArrays_readArg numerals entry right
      have first : (readArg numerals entry left).1 = (readArg numerals entry right).1 := by
        rw [readArg_eq, readArg_eq]
        exact answer_of_sameTypes same (plain entry List.mem_cons_self)
      have later := ih ((leftGrows.sameTypes.symm.trans same).trans rightGrows.sameTypes)
        fun other member => plain other (List.mem_cons_of_mem entry member)
      rw [readArgs]
      apply Program.bind_fst_congr first
      intro arg
      cases arg with
      | none => rfl
      | some arg =>
          apply Program.bind_fst_congr later
          intro list
          cases list with
          | none => rfl
          | some list => rfl

theorem arglistProc_of_sameTypes {desc : LuaValue} (same : SameTypes left right)
    (plain : ∀ entry ∈ (argEntries desc).getD [], ¬(argRequest numerals entry).NamesArray) :
    (arglistProc numerals desc left).1 = (arglistProc numerals desc right).1 := by
  rw [arglistProc_eq]
  rcases listed : argEntries desc with _ | entries
  · rfl
  · rw [listed] at plain
    exact readArgs_of_sameTypes same plain

end Arguments

/-! ## Successful loads -/

/-- What a successful load has made: an object with a function, and what its file says. -/
structure Loads (setup : Setup) (world : World) (file : DescFile) (new : NetProtocol) : Prop where
  read : ∃ desc, described setup file = some (new.packFuncName, new.isMaker, desc) ∧
    (arglistProc setup.numerals desc world.args).1 = .ret (some new.args)
  bound : Bound new.isMaker new.unpackRef

section Loads

variable {setup : Setup} {file : DescFile} {world after : World} {proto new bound : NetProtocol}

theorem funcProc_bound (fresh : proto.unpackRef = none)
    (returns : funcProc setup proto world = (.ret (some bound), after)) :
    Bound proto.isMaker bound.unpackRef := by
  intro isMaker
  rw [funcProc, if_pos isMaker] at returns
  have callable := bindFunc_callable returns (by simp [fresh])
  rcases bindFunc_cases setup world proto fresh with
    ⟨-, aborts⟩ | ⟨-, ⟨-, handler, binds⟩ | ⟨-, nothing⟩⟩
  · cases aborts.symm.trans returns
  · cases binds.symm.trans returns
    exact ⟨handler, rfl, callable handler rfl⟩
  · cases nothing.symm.trans returns

theorem files_functionStored (setup : Setup) (proto : NetProtocol) (world : World) :
    (functionStored setup proto world).files = world.files := by
  unfold functionStored
  split_ifs
  · rfl
  · rcases storeClosure_eq proto.packFuncName proto.self world with ⟨globals, stored⟩
    rw [stored]

theorem args_funcProc (setup : Setup) (proto : NetProtocol) (world : World) :
    (funcProc setup proto world).2.args = world.args := by
  unfold funcProc
  split_ifs
  · rcases entry : makerFunc setup world proto.packFuncName with _ | handler
    · rcases present : defaultConstructor world with _ | constructor
      · simp only [bindFunc, Program.bind_apply, Program.get_apply, entry, present]
        split_ifs
        · rfl
        · rfl
      · simp only [bindFunc, Program.bind_apply, Program.get_apply, entry, present]
        split_ifs
        · rfl
        · rfl
    · simp only [bindFunc, Program.bind_apply, Program.get_apply, entry]
      rfl
  · exact args_storeClosure setup proto.packFuncName proto.self world

theorem load_loads (fresh : proto.unpackRef = none)
    (returns : proto.load setup file world = (.ret (some new), after)) :
    Loads setup world file new := by
  rcases load_eq_some returns with
    ⟨name, isMaker, desc, bound, stored, args, registry, read, processed, listed, rfl, rfl⟩
  have unbound : (proto.withRole name isMaker).unpackRef = none := fresh
  have isBound := funcProc_bound unbound processed
  rcases funcProc_ret processed with ⟨rfl, unpackRef, rfl⟩
  rw [args_functionStored] at listed
  exact ⟨⟨desc, read, congrArg Prod.fst listed⟩, isBound⟩

end Loads

end NetProtocol

namespace ProtoManager

open NetProtocol

section Placing

variable {setup : Setup} {world after : World} {call : Call}

/-- Where a call puts an entry of the list of protocols. -/
def Call.place {α : Type} (setup : Setup) (entries : List α) (new : α) : Call → List α
  | add _ => entries ++ [new]
  | update idArg _ => entries.set (updateId setup idArg) new

theorem Call.install_eq (call : Call) (new : NetProtocol) (world : World) :
    call.install setup new world =
      { world with
        protos := call.place setup world.protos new
        files := call.place setup world.files (some call.file) } := by
  cases call with
  | add file => rfl
  | update idArg file => rfl

theorem Call.getElem?_place (loads : call.loads setup world = true) (new : NetProtocol) (id : ℕ) :
    (call.place setup world.protos new)[id]? =
      if id = call.target setup world then some new else world.protos[id]? := by
  cases call with
  | add file =>
      show (world.protos ++ [new])[id]? =
        if id = world.protos.length then some new else world.protos[id]?
      rcases lt_trichotomy id world.protos.length with old | rfl | beyond
      · rw [if_neg old.ne, List.getElem?_append_left old]
      · rw [if_pos rfl, List.getElem?_concat_length]
      · rw [if_neg beyond.ne', List.getElem?_eq_none (by simpa using beyond),
          List.getElem?_eq_none beyond.le]
  | update idArg file =>
      simp only [Call.loads, Bool.and_eq_true, decide_eq_true_eq] at loads
      show (world.protos.set (updateId setup idArg) new)[id]? =
        if id = updateId setup idArg then some new else world.protos[id]?
      split_ifs with same
      · rw [same, List.getElem?_set_self loads.2]
      · rw [List.getElem?_set_ne (Ne.symm same)]

/-- A successful call puts a loaded object into the list of protocols. -/
theorem loads_of_succeeds (started : 0 < world.protos.length)
    (returned : call.program setup world = (.ret true, after)) :
    call.loads setup world = true ∧ ∃ new, Loads setup world call.file new ∧
      new.id = call.target setup world ∧ after.protos = call.place setup world.protos new ∧
      after.files = call.place setup world.files (some call.file) := by
  rw [program_eq started] at returned
  split_ifs at returned with loads
  · refine ⟨loads, ?_⟩
    rcases Program.bind_eq_ret_iff.mp returned with ⟨proto, begun, created, returned⟩
    cases created
    rcases Program.bind_eq_ret_iff.mp returned with ⟨loaded, stored, load, returned⟩
    cases loaded with
    | none => cases returned
    | some new =>
        rcases load_ret load with ⟨-, numbered, -, registry, rfl⟩
        cases returned
        have made := load_loads rfl load
        refine ⟨new, ⟨made.read, made.bound⟩, numbered, ?_, ?_⟩
        · rw [Call.install_eq, (protos_functionStored setup new _).1]
        · rw [Call.install_eq, files_functionStored]
  · cases returned

end Placing

/-! ## Two sides -/

/--
Two sides that have registered the same files under the same ids.  The objects that their
managers start with are the same, and take no part in any call.
-/
structure Twins (client server : World) : Prop where
  started : 0 < client.protos.length
  types : SameTypes client.args server.args
  files : client.files = server.files
  length : client.protos.length = server.protos.length
  twin : ∀ {id : ℕ} {ours theirs : NetProtocol}, client.protos[id]? = some ours →
    server.protos[id]? = some theirs →
    ours.id = id ∧ (Counterpart ours theirs ∨ id = 0 ∧ ours = theirs)

theorem twins_init (args : List ArgObj) (clientGlobals serverGlobals : List (LuaKey × LuaValue)) :
    Twins (.init args clientGlobals) (.init args serverGlobals) := by
  refine ⟨Nat.one_pos, fun _ _ => rfl, rfl, rfl, ?_⟩
  intro id ours theirs onClient onServer
  cases id with
  | zero =>
      cases onClient
      cases onServer
      exact ⟨rfl, .inr ⟨rfl, rfl⟩⟩
  | succ id => simp [World.init] at onClient

section TwoSides

variable {client server client' server' : World} {clientSetup serverSetup : Setup} {call : Call}

/-- The objects that the two sides load from one file. -/
theorem counterpart_of_loads {file : DescFile} {ours theirs : NetProtocol}
    (isClient : clientSetup.curChar = .client) (isServer : serverSetup.curChar = .server)
    (sameNumerals : clientSetup.numerals = serverSetup.numerals)
    (types : SameTypes client.args server.args) (plain : PlainTypes clientSetup file)
    (onClient : Loads clientSetup client file ours)
    (onServer : Loads serverSetup server file theirs) (sameId : ours.id = theirs.id) :
    Counterpart ours theirs := by
  rcases onClient.read with ⟨desc, read, listed⟩
  rcases onServer.read with ⟨desc', read', listed'⟩
  rw [described_server isClient isServer sameNumerals, read] at read'
  simp only [Option.map_some, Option.some.injEq, Prod.mk.injEq] at read'
  rcases read' with ⟨sameName, otherRole, rfl⟩
  have sameArgs : ours.args = theirs.args := by
    rw [PlainTypes, entriesOf, read, Option.bind_some] at plain
    rw [arglistProc_of_sameTypes types plain, sameNumerals, listed'] at listed
    simpa using listed.symm
  exact ⟨sameId, sameArgs, sameName, otherRole.symm, onClient.bound, onServer.bound⟩

theorem place_congr {α : Type} (sameNumerals : clientSetup.numerals = serverSetup.numerals)
    (entries : List α) (new : α) (call : Call) :
    call.place clientSetup entries new = call.place serverSetup entries new := by
  cases call with
  | add file => rfl
  | update idArg file => simp only [Call.place, updateId, sameNumerals]

theorem target_congr (sameNumerals : clientSetup.numerals = serverSetup.numerals)
    (sameLength : client.protos.length = server.protos.length) (call : Call) :
    call.target clientSetup client = call.target serverSetup server := by
  cases call with
  | add file => exact sameLength
  | update idArg file => simp only [Call.target, updateId, sameNumerals]

theorem length_place_congr {α : Type} {entries others : List α} (call : Call)
    (same : entries.length = others.length) (new other : α) :
    (call.place clientSetup entries new).length = (call.place serverSetup others other).length := by
  cases call with
  | add file => simp [Call.place, same]
  | update idArg file => simp [Call.place, same]

theorem length_place_pos {α : Type} {entries : List α} (call : Call) (started : 0 < entries.length)
    (new : α) : 0 < (call.place clientSetup entries new).length := by
  cases call with
  | add file => simp [Call.place]
  | update idArg file => simpa [Call.place] using started

/-- Both sides load the file of a call. -/
theorem Twins.succeed (isClient : clientSetup.curChar = .client)
    (isServer : serverSetup.curChar = .server)
    (sameNumerals : clientSetup.numerals = serverSetup.numerals) (twins : Twins client server)
    (plain : PlainTypes clientSetup call.file)
    (onClient : call.program clientSetup client = (.ret true, client'))
    (onServer : call.program serverSetup server = (.ret true, server')) :
    Twins client' server' := by
  have started := twins.started
  rcases loads_of_succeeds started onClient with
    ⟨clientLoads, ours, ourLoad, ourId, clientProtos, clientFiles⟩
  rcases loads_of_succeeds (twins.length ▸ started) onServer with
    ⟨serverLoads, theirs, theirLoad, theirId, serverProtos, serverFiles⟩
  have clientGrows := argsGrow_program clientSetup call client
  have serverGrows := argsGrow_program serverSetup call server
  rw [onClient] at clientGrows
  rw [onServer] at serverGrows
  have sameTarget := target_congr sameNumerals twins.length call
  constructor
  · rw [clientProtos]
    exact length_place_pos call started ours
  · exact (clientGrows.sameTypes.symm.trans twins.types).trans serverGrows.sameTypes
  · rw [clientFiles, serverFiles, twins.files, place_congr sameNumerals]
  · rw [clientProtos, serverProtos]
    exact length_place_congr call twins.length ours theirs
  · intro id first second foundFirst foundSecond
    rw [clientProtos, Call.getElem?_place clientLoads] at foundFirst
    rw [serverProtos, Call.getElem?_place serverLoads, ← sameTarget] at foundSecond
    split_ifs at foundFirst foundSecond with here
    · cases foundFirst
      cases foundSecond
      refine ⟨ourId.trans here.symm, .inl ?_⟩
      apply counterpart_of_loads isClient isServer sameNumerals twins.types plain ourLoad theirLoad
      rw [ourId, theirId, sameTarget]
    · exact twins.twin foundFirst foundSecond

/-- No side loads the file of a call. -/
theorem Twins.fail (twins : Twins client server) (onClient : ¬Succeeds clientSetup client call)
    (onServer : ¬Succeeds serverSetup server call) :
    Twins (call.program clientSetup client).2 (call.program serverSetup server).2 := by
  have started := twins.started
  rcases lingers_of_not_succeeds started onClient with ⟨clientProtos, clientFiles, -, -⟩
  rcases lingers_of_not_succeeds (twins.length ▸ started) onServer with
    ⟨serverProtos, serverFiles, -, -⟩
  have clientGrows := argsGrow_program clientSetup call client
  have serverGrows := argsGrow_program serverSetup call server
  constructor
  · rw [clientProtos]
    exact started
  · exact (clientGrows.sameTypes.symm.trans twins.types).trans serverGrows.sameTypes
  · rw [clientFiles, serverFiles, twins.files]
  · rw [clientProtos, serverProtos, twins.length]
  · rw [clientProtos, serverProtos]
    exact twins.twin

/-- The same call on both sides, whose scripts go on after failures and errors. -/
def attemptBoth (clientSetup serverSetup : Setup) (worlds : World × World) (call : Call) :
    Option (World × World) :=
  (attempt clientSetup worlds.1 call).bind fun client =>
    (attempt serverSetup worlds.2 call).map fun server => (client, server)

/-- The call succeeds on both sides or on neither, and its file does not name the type `array`. -/
def Paired (clientSetup serverSetup : Setup) (worlds : World × World) (call : Call) : Prop :=
  PlainTypes clientSetup call.file ∧
    (Succeeds clientSetup worlds.1 call ↔ Succeeds serverSetup worlds.2 call)

instance (clientSetup serverSetup : Setup) (worlds : World × World) (call : Call) :
    Decidable (Paired clientSetup serverSetup worlds call) :=
  inferInstanceAs (Decidable (_ ∧ _))

theorem Twins.attemptBoth (isClient : clientSetup.curChar = .client)
    (isServer : serverSetup.curChar = .server)
    (sameNumerals : clientSetup.numerals = serverSetup.numerals) {worlds after : World × World}
    (twins : Twins worlds.1 worlds.2) (paired : Paired clientSetup serverSetup worlds call)
    (stepped : attemptBoth clientSetup serverSetup worlds call = some after) :
    Twins after.1 after.2 := by
  rcases Option.bind_eq_some_iff.mp stepped with ⟨client, onClient, stepped⟩
  rcases Option.map_eq_some_iff.mp stepped with ⟨server, onServer, rfl⟩
  have clientAfter := attempt_program onClient
  have serverAfter := attempt_program onServer
  rcases paired with ⟨plain, same⟩
  by_cases succeeds : Succeeds clientSetup worlds.1 call
  · exact twins.succeed isClient isServer sameNumerals plain (Prod.ext succeeds clientAfter)
      (Prod.ext (same.mp succeeds) serverAfter)
  · have fails : ¬Succeeds serverSetup worlds.2 call := fun other => succeeds (same.mpr other)
    rw [← clientAfter, ← serverAfter]
    exact twins.fail succeeds fails

/-- The two sides of a common run. -/
theorem run_attemptBoth {client server client' server' : World} {calls : List Call}
    (onClient : run (attempt clientSetup) client calls = some client')
    (onServer : run (attempt serverSetup) server calls = some server') :
    run (attemptBoth clientSetup serverSetup) (client, server) calls =
      some (client', server') := by
  induction calls generalizing client server with
  | nil =>
      cases onClient
      cases onServer
      rfl
  | cons call rest ih =>
      rcases Option.bind_eq_some_iff.mp onClient with ⟨next, stepped, later⟩
      rcases Option.bind_eq_some_iff.mp onServer with ⟨next', stepped', later'⟩
      rw [run_cons, attemptBoth, stepped, stepped']
      exact ih later later'

theorem twins_of_paired (isClient : clientSetup.curChar = .client)
    (isServer : serverSetup.curChar = .server)
    (sameNumerals : clientSetup.numerals = serverSetup.numerals) (args : List ArgObj)
    (clientGlobals serverGlobals : List (LuaKey × LuaValue)) {calls : List Call}
    (paired : StepsMeet (attemptBoth clientSetup serverSetup) (Paired clientSetup serverSetup)
      (.init args clientGlobals, .init args serverGlobals) calls) :
    StatesMeet (attemptBoth clientSetup serverSetup) (fun worlds => Twins worlds.1 worlds.2)
      (.init args clientGlobals, .init args serverGlobals) calls := by
  refine statesMeet_of_stepsMeet ?_ ?_ paired
  · intro worlds call after twins paired stepped
    exact twins.attemptBoth isClient isServer sameNumerals paired stepped
  · exact twins_init args clientGlobals serverGlobals

/--
Along any calls of `add_protocol` and `update_protocol` that each succeed on both sides or
on neither and do not name the type `array`, an id stands for the same file, name and arguments
on both sides in every state; one side implements it and has a function bound to it.
-/
theorem reloads_agree (isClient : clientSetup.curChar = .client)
    (isServer : serverSetup.curChar = .server)
    (sameNumerals : clientSetup.numerals = serverSetup.numerals) (args : List ArgObj)
    (clientGlobals serverGlobals : List (LuaKey × LuaValue)) {calls : List Call}
    (paired : StepsMeet (attemptBoth clientSetup serverSetup) (Paired clientSetup serverSetup)
      (.init args clientGlobals, .init args serverGlobals) calls) :
    StatesMeet (attemptBoth clientSetup serverSetup)
      (fun (client, server) => client.files = server.files ∧
        client.protos.length = server.protos.length ∧
        ∀ id ours theirs, 1 ≤ id → client.protos[id]? = some ours →
          server.protos[id]? = some theirs → ours.id = id ∧ Counterpart ours theirs)
      (.init args clientGlobals, .init args serverGlobals) calls := by
  have twins : StatesMeet (attemptBoth clientSetup serverSetup)
      (fun worlds => Twins worlds.1 worlds.2)
      (.init args clientGlobals, .init args serverGlobals) calls :=
    twins_of_paired isClient isServer sameNumerals args clientGlobals serverGlobals paired
  apply twins.imp
  rintro ⟨client, server⟩ twins
  refine ⟨twins.files, twins.length, ?_⟩
  intro id ours theirs positive onClient onServer
  rcases twins.twin onClient onServer with ⟨numbered, pair | ⟨rfl, -⟩⟩
  · exact ⟨numbered, pair⟩
  · exact absurd positive (by decide)

end TwoSides

/-- Two protocols, a file that is on no side, and another argument for the second one. -/
def reloads : List Call :=
  [.add (oneArg "pto/c_foo.pto" "number"), .add (oneArg "pto/s_bar.pto" "string"),
    .add ⟨ofString "pto/s_lost.pto", .unreadable⟩,
    .update (.number 2) (oneArg "pto/s_bar.pto" "dword")]

theorem reloads_paired :
    StepsMeet (attemptBoth (oneMaker .client) (oneMaker .server))
      (Paired (oneMaker .client) (oneMaker .server))
      (.init initArgs (makerTable "c_foo"), .init initArgs (makerTable "s_bar")) reloads := by
  decide +kernel

theorem reloads_agree_reloads :
    ∃ client server,
      run (attemptBoth (oneMaker .client) (oneMaker .server))
        (.init initArgs (makerTable "c_foo"), .init initArgs (makerTable "s_bar")) reloads =
          some (client, server) ∧
      client.files = server.files ∧ client.protos.length = server.protos.length ∧
      ∀ id ours theirs, 1 ≤ id → client.protos[id]? = some ours →
        server.protos[id]? = some theirs → ours.id = id ∧ Counterpart ours theirs := by
  have sameNumerals : (oneMaker .client).numerals = (oneMaker .server).numerals := rfl
  have agreed := reloads_agree rfl rfl sameNumerals initArgs (makerTable "c_foo")
    (makerTable "s_bar") reloads_paired
  have succeeds : (run (attemptBoth (oneMaker .client) (oneMaker .server))
      (.init initArgs (makerTable "c_foo"), .init initArgs (makerTable "s_bar"))
      reloads).isSome = true := by
    decide +kernel
  rcases Option.isSome_iff_exists.mp succeeds with ⟨⟨client, server⟩, reached⟩
  exact ⟨client, server, reached, agreed.last reached⟩

end ProtoManager

end SimpleModule
