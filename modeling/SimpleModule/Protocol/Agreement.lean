import SimpleModule.Protocol.Load

/-!
# Agreement on ids

A client and a server load the same description files in the same order.  Ids are not
part of a file: they count the successful loads of a side, and a load may fail on the
implementing side only, when there is neither a function to bind to the protocol nor a
constructor for default functions.

If each side can bind what it implements, both sides register the same files and agree
on the ids and arguments of all protocols.
-/

namespace SimpleModule

open Octets Exits Runs

namespace NetProtocol

variable {setup : Setup} {file : DescFile} {world : World}

/-- There is a function to bind to a name. -/
def available (setup : Setup) (world : World) (name : Bytes) : Bool :=
  (makerFunc setup world name).isSome ||
    match defaultConstructor world with
    | some constructor => (setup.callConstructor constructor name).isFunction
    | none => false

/-- A side can bind a function to the protocol of a file, if it implements it. -/
def Bindable (setup : Setup) (world : World) (file : DescFile) : Prop :=
  ∀ read ∈ described setup file, read.2.1 = true → available setup world read.1 = true

instance (setup : Setup) (world : World) (file : DescFile) :
    Decidable (Bindable setup world file) :=
  inferInstanceAs (Decidable (∀ read ∈ described setup file, _))

theorem processType_server (path : Bytes) :
    processType .server path =
      (processType .client path).map fun (name, isMaker) => (name, !isMaker) := by
  simp only [processType, Nat.not_lt_zero, if_false, false_or]
  split_ifs with invalid client server
  · rfl
  · rfl
  · rfl
  · rfl

theorem described_server {client server : Setup} (isClient : client.curChar = .client)
    (isServer : server.curChar = .server) (sameNumerals : client.numerals = server.numerals)
    (file : DescFile) :
    described server file =
      (described client file).map fun (name, isMaker, desc) => (name, !isMaker, desc) := by
  simp only [described, isClient, isServer, processType_server, sameNumerals]
  rcases processType .client file.path with _ | ⟨name, isMaker⟩
  · rfl
  · cases file.content with
    | unreadable => rfl
    | loadError => rfl
    | runError => rfl
    | returns desc =>
        simp only [Option.map_some]
        split_ifs with isTable
        · rfl
        · rfl

/-- A function that has been bound to a protocol, if this side implements it. -/
def Bound (isMaker : Bool) (unpackRef : Option LuaValue) : Prop :=
  isMaker = true → ∃ handler, unpackRef = some handler ∧ handler.isFunction = true

theorem bindFunc_of_available {proto : NetProtocol}
    (found : available setup world proto.packFuncName = true) :
    ∃ handler, handler.isFunction = true ∧
      bindFunc setup proto world =
        (.ret (some { proto with unpackRef := some handler }), world) := by
  rcases entry : makerFunc setup world proto.packFuncName with _ | handler
  · rcases present : defaultConstructor world with _ | constructor
    · simp [available, entry, present] at found
    · have callable : (setup.callConstructor constructor proto.packFuncName).isFunction = true := by
        simpa [available, entry, present] using found
      refine ⟨_, callable, ?_⟩
      simp [bindFunc, Program.bind_apply, entry, present, callable]
  · refine ⟨handler, isFunction_of_makerFunc entry, ?_⟩
    simp [bindFunc, Program.bind_apply, entry]

theorem storeClosure_eq (name : Bytes) (self : ℕ) (world : World) :
    ∃ globals, storeClosure setup name self world = { world with globals := globals } := by
  unfold storeClosure
  split
  · exact ⟨_, rfl⟩
  · exact ⟨_, rfl⟩

theorem funcProc_of_bindable {name : Bytes} {isMaker : Bool} {desc : LuaValue}
    (bindable : Bindable setup world file)
    (read : described setup file = some (name, isMaker, desc)) (proto : NetProtocol)
    (nextSelf : ℕ) :
    ∃ globals unpackRef, Bound isMaker unpackRef ∧
      funcProc setup (proto.withRole name isMaker) { world with nextSelf := nextSelf } =
        (.ret (some { proto.withRole name isMaker with unpackRef := unpackRef }),
          { world with globals := globals, nextSelf := nextSelf }) := by
  cases isMaker with
  | true =>
      have found : available setup { world with nextSelf := nextSelf }
          (proto.withRole name true).packFuncName = true := bindable _ read rfl
      rcases bindFunc_of_available found with ⟨handler, callable, bound⟩
      refine ⟨world.globals, some handler, fun _ => ⟨handler, rfl, callable⟩, ?_⟩
      have isMaker : (proto.withRole name true).isMaker = true := rfl
      rw [funcProc, if_pos isMaker, bound]
  | false =>
      rcases storeClosure_eq name proto.self { world with nextSelf := nextSelf } with
        ⟨globals, stored⟩
      refine ⟨globals, proto.unpackRef, fun isMaker => absurd isMaker (by decide), ?_⟩
      rw [funcProc, if_neg (by simp [withRole])]
      simp only [withRole, Program.bind_apply, Program.modify_apply]
      rw [stored]
      rfl

end NetProtocol

namespace ProtoManager

open NetProtocol

variable {setup : Setup} {file : DescFile} {world : World}

theorem addProtocol_of_none (nothing : described setup file = none)
    (started : 0 < world.protos.length) :
    addProtocol setup file world = (.ret false, { world with nextSelf := world.nextSelf + 1 }) := by
  simp [addProtocol, loadNew, Program.bind_apply, started, create, load_eq, nothing]

/-- With a function to bind, the outcome depends on the registry of formats alone. -/
theorem addProtocol_of_some {name : Bytes} {isMaker : Bool} {desc : LuaValue}
    (started : 0 < world.protos.length) (bindable : Bindable setup world file)
    (read : described setup file = some (name, isMaker, desc)) {ended : Exit (Option (List ArgObj))}
    {registry : List ArgObj}
    (listed : arglistProc setup.numerals desc world.args = (ended, registry)) :
    ∃ globals unpackRef, Bound isMaker unpackRef ∧
      addProtocol setup file world =
        match ended with
        | .ret (some args) =>
            (.ret true, ⟨registry, globals,
              world.protos ++
                [⟨world.nextSelf, world.protos.length, args, name, unpackRef, isMaker⟩],
              world.files ++ [some file], world.nextSelf + 1⟩)
        | .ret none =>
            (.ret false, ⟨registry, globals, world.protos, world.files, world.nextSelf + 1⟩)
        | .raise => (.raise, ⟨registry, globals, world.protos, world.files, world.nextSelf + 1⟩)
        | .abort => (.abort, ⟨registry, globals, world.protos, world.files, world.nextSelf + 1⟩)
        | .fault =>
            (.fault, ⟨registry, globals, world.protos, world.files, world.nextSelf + 1⟩) := by
  rcases funcProc_of_bindable bindable read
    ⟨world.nextSelf, world.protos.length, [], [], none, false⟩ (world.nextSelf + 1) with
    ⟨globals, unpackRef, bound, function⟩
  refine ⟨globals, unpackRef, bound, ?_⟩
  simp only [addProtocol, loadNew, Program.bind_apply, Program.get_apply, started, gt_iff_lt,
    if_true, create, Program.modify_apply, Program.pure_apply, load_eq, read, procTable, function,
    Program.focus, listed]
  rcases ended with (_ | args) | _ | _ | _
  · rfl
  · rfl
  · rfl
  · rfl
  · rfl

/-! ## Two sides -/

/-- One call of `add_protocol` in a script that goes on after failures and errors. -/
def addStep (setup : Setup) (world : World) (file : DescFile) : Option World :=
  match addProtocol setup file world with
  | (.ret _, after) => some after
  | (.raise, after) => some after
  | _ => none

/-- The protocol objects of one id on the two sides. -/
structure Counterpart (ours theirs : NetProtocol) : Prop where
  id : ours.id = theirs.id
  args : ours.args = theirs.args
  packFuncName : ours.packFuncName = theirs.packFuncName
  isMaker : theirs.isMaker = !ours.isMaker
  ours_bound : Bound ours.isMaker ours.unpackRef
  theirs_bound : Bound theirs.isMaker theirs.unpackRef

/-- The two sides have registered the same files under the same ids. -/
structure Agree (client server : World) : Prop where
  started : 0 < client.protos.length
  args : client.args = server.args
  files : client.files = server.files
  length : client.protos.length = server.protos.length
  counterpart : ∀ id ours theirs, 1 ≤ id → client.protos[id]? = some ours →
    server.protos[id]? = some theirs → ours.id = id ∧ Counterpart ours theirs

theorem agree_init (args : List ArgObj) (clientGlobals serverGlobals : List (LuaKey × LuaValue)) :
    Agree (.init args clientGlobals) (.init args serverGlobals) := by
  refine ⟨Nat.one_pos, rfl, rfl, rfl, ?_⟩
  intro id ours theirs positive found
  rw [World.init, List.getElem?_eq_none (by simpa using positive)] at found
  exact absurd found (by simp)

section TwoSides

variable {client server client' server' : World} {clientSetup serverSetup : Setup}

theorem Agree.register (agree : Agree client server) {ours theirs : NetProtocol}
    (numbered : ours.id = client.protos.length) (pair : Counterpart ours theirs)
    (clientGlobals serverGlobals : List (LuaKey × LuaValue)) (registry : List ArgObj)
    (file : DescFile) (clientSelf serverSelf : ℕ) :
    Agree
      ⟨registry, clientGlobals, client.protos ++ [ours], client.files ++ [some file], clientSelf⟩
      ⟨registry, serverGlobals, server.protos ++ [theirs], server.files ++ [some file],
        serverSelf⟩ := by
  refine ⟨by simp, rfl, by simp [agree.files], by simp [agree.length], ?_⟩
  intro id first second positive foundFirst foundSecond
  rcases lt_trichotomy id client.protos.length with old | rfl | beyond
  · rw [List.getElem?_append_left old] at foundFirst
    rw [List.getElem?_append_left (agree.length ▸ old)] at foundSecond
    exact agree.counterpart id first second positive foundFirst foundSecond
  · simp only [List.getElem?_concat_length, Option.some.injEq] at foundFirst
    simp only [agree.length, List.getElem?_concat_length, Option.some.injEq] at foundSecond
    subst foundFirst foundSecond
    exact ⟨numbered, pair⟩
  · rw [List.getElem?_eq_none (by simpa using beyond)] at foundFirst
    exact absurd foundFirst (by simp)

theorem Agree.refuse (agree : Agree client server)
    (clientGlobals serverGlobals : List (LuaKey × LuaValue)) (registry : List ArgObj)
    (clientSelf serverSelf : ℕ) :
    Agree ⟨registry, clientGlobals, client.protos, client.files, clientSelf⟩
      ⟨registry, serverGlobals, server.protos, server.files, serverSelf⟩ :=
  ⟨agree.started, rfl, agree.files, agree.length, agree.counterpart⟩

/-- One file that both sides can bind keeps the agreement. -/
theorem Agree.step (isClient : clientSetup.curChar = .client)
    (isServer : serverSetup.curChar = .server)
    (sameNumerals : clientSetup.numerals = serverSetup.numerals) (agree : Agree client server)
    (clientBinds : Bindable clientSetup client file)
    (serverBinds : Bindable serverSetup server file)
    (clientAdds : addStep clientSetup client file = some client')
    (serverAdds : addStep serverSetup server file = some server') : Agree client' server' := by
  have serverStarted : 0 < server.protos.length := agree.length ▸ agree.started
  have otherSide := described_server isClient isServer sameNumerals file
  rcases read : described clientSetup file with _ | ⟨name, isMaker, desc⟩
  · rw [read, Option.map_none] at otherSide
    rw [addStep, addProtocol_of_none read agree.started] at clientAdds
    rw [addStep, addProtocol_of_none otherSide serverStarted] at serverAdds
    obtain rfl := Option.some.inj clientAdds
    obtain rfl := Option.some.inj serverAdds
    exact ⟨agree.started, agree.args, agree.files, agree.length, agree.counterpart⟩
  · rw [read, Option.map_some] at otherSide
    rcases listed : arglistProc clientSetup.numerals desc client.args with ⟨ended, registry⟩
    have listed' : arglistProc serverSetup.numerals desc server.args = (ended, registry) := by
      rw [← sameNumerals, ← agree.args, listed]
    rcases addProtocol_of_some agree.started clientBinds read listed with
      ⟨clientGlobals, clientRef, clientBound, clientAdded⟩
    rcases addProtocol_of_some serverStarted serverBinds otherSide listed' with
      ⟨serverGlobals, serverRef, serverBound, serverAdded⟩
    rw [addStep, clientAdded] at clientAdds
    rw [addStep, serverAdded] at serverAdds
    rcases ended with (_ | args) | _ | _ | _
    · obtain rfl := Option.some.inj clientAdds
      obtain rfl := Option.some.inj serverAdds
      apply agree.refuse
    · obtain rfl := Option.some.inj clientAdds
      obtain rfl := Option.some.inj serverAdds
      apply agree.register rfl
      exact ⟨agree.length, rfl, rfl, rfl, clientBound, serverBound⟩
    · obtain rfl := Option.some.inj clientAdds
      obtain rfl := Option.some.inj serverAdds
      apply agree.refuse
    · simp at clientAdds
    · simp at clientAdds

/--
If each side can bind every protocol that it implements when its file is loaded, an id
that is registered on both sides belongs to the same file and to the same arguments, and
one of the sides implements it and has a function bound to it.
-/
theorem ids_agree (isClient : clientSetup.curChar = .client)
    (isServer : serverSetup.curChar = .server)
    (sameNumerals : clientSetup.numerals = serverSetup.numerals) (args : List ArgObj)
    (clientGlobals serverGlobals : List (LuaKey × LuaValue)) {files : List DescFile}
    (clientBinds : StepsMeet (addStep clientSetup) (Bindable clientSetup)
      (.init args clientGlobals) files)
    (serverBinds : StepsMeet (addStep serverSetup) (Bindable serverSetup)
      (.init args serverGlobals) files)
    (clientLoads : run (addStep clientSetup) (.init args clientGlobals) files = some client')
    (serverLoads : run (addStep serverSetup) (.init args serverGlobals) files = some server')
    {id : ℕ} {ours theirs : NetProtocol} (positive : 1 ≤ id)
    (onClient : client'.protos[id]? = some ours) (onServer : server'.protos[id]? = some theirs) :
    client'.files[id]? = server'.files[id]? ∧ ours.id = id ∧ Counterpart ours theirs := by
  have agree : Agree client' server' :=
    run_related (fun agree clientBind serverBind clientAdd serverAdd =>
        agree.step isClient isServer sameNumerals clientBind serverBind clientAdd serverAdd)
      (agree_init args clientGlobals serverGlobals) clientBinds serverBinds clientLoads serverLoads
  rw [agree.files]
  exact ⟨rfl, agree.counterpart id ours theirs positive onClient onServer⟩

end TwoSides

/-- A description with one argument. -/
def oneArg (path typeName : String) : DescFile :=
  ⟨ofString path, .returns (.table [(.string (ofString "arg_list"),
    .table [(.number 1, .table [(.number 1, .string (ofString "value")),
      (.number 2, .string (ofString typeName))])])])⟩

/-- A side that has no default functions. -/
def oneMaker (curChar : CurChar) : Setup :=
  ⟨curChar, ofString "for_maker", ofString "for_caller", noNumerals, fun _ _ => .nil⟩

def makerTable (name : String) : List (LuaKey × LuaValue) :=
  [(.string (ofString "for_maker"), .table [(.string (ofString name), .function 1)])]

/-- A protocol for each side to implement. -/
def twoFiles : List DescFile := [oneArg "pto/c_foo.pto" "number", oneArg "pto/s_bar.pto" "string"]

theorem ids_agree_two_files :
    ∃ client server ours theirs,
      run (addStep (oneMaker .client)) (.init initArgs (makerTable "c_foo")) twoFiles =
        some client ∧
      run (addStep (oneMaker .server)) (.init initArgs (makerTable "s_bar")) twoFiles =
        some server ∧
      client.protos[2]? = some ours ∧ server.protos[2]? = some theirs ∧
      client.files[2]? = server.files[2]? ∧ ours.id = 2 ∧ Counterpart ours theirs := by
  have onClient : ((run (addStep (oneMaker .client)) (.init initArgs (makerTable "c_foo"))
      twoFiles).bind fun world => world.protos[2]?).isSome = true := by
    decide +kernel
  have onServer : ((run (addStep (oneMaker .server)) (.init initArgs (makerTable "s_bar"))
      twoFiles).bind fun world => world.protos[2]?).isSome = true := by
    decide +kernel
  have clientBinds : StepsMeet (addStep (oneMaker .client)) (Bindable (oneMaker .client))
      (.init initArgs (makerTable "c_foo")) twoFiles := by
    decide +kernel
  have serverBinds : StepsMeet (addStep (oneMaker .server)) (Bindable (oneMaker .server))
      (.init initArgs (makerTable "s_bar")) twoFiles := by
    decide +kernel
  rcases Option.isSome_iff_exists.mp onClient with ⟨ours, reached⟩
  rcases Option.isSome_iff_exists.mp onServer with ⟨theirs, reached'⟩
  rcases Option.bind_eq_some_iff.mp reached with ⟨client, clientLoads, found⟩
  rcases Option.bind_eq_some_iff.mp reached' with ⟨server, serverLoads, found'⟩
  have sameNumerals : (oneMaker .client).numerals = (oneMaker .server).numerals := rfl
  have agreed := ids_agree rfl rfl sameNumerals initArgs (makerTable "c_foo") (makerTable "s_bar")
    clientBinds serverBinds clientLoads serverLoads (show 1 ≤ 2 by decide) found found'
  exact ⟨client, server, ours, theirs, clientLoads, serverLoads, found, found', agreed⟩

/--
A client without a function for a protocol that it implements refuses the file, and from
then on its ids are behind those of the server.
-/
theorem ids_disagree :
    ((run (addStep (oneMaker .client)) (.init initArgs (makerTable "c_other"))
        twoFiles).map fun world =>
          (world.files.map (Option.map DescFile.path),
            world.protos.map fun proto => proto.args.map ArgObj.typeName)) =
      some ([none, some (ofString "pto/s_bar.pto")], [[], [ofString "string"]]) ∧
    ((run (addStep (oneMaker .server)) (.init initArgs (makerTable "s_bar"))
        twoFiles).map fun world =>
          (world.files.map (Option.map DescFile.path),
            world.protos.map fun proto => proto.args.map ArgObj.typeName)) =
      some ([none, some (ofString "pto/c_foo.pto"), some (ofString "pto/s_bar.pto")],
        [[], [ofString "number"], [ofString "string"]]) := by
  constructor
  · decide +kernel
  · decide +kernel

end ProtoManager

end SimpleModule
