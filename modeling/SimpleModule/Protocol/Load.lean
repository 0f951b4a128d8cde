import SimpleModule.Lib.Runs
import SimpleModule.Protocol.Message

/-!
# Loading protocols

`add_protocol` and `update_protocol` load a description file into a protocol object.
The name of the file says which side implements the protocol; the implementing side
binds a script function to the object and the other side stores a `pack` closure for it
in its caller table.  Ids are given out in the order of successful loads.

The chunk of a description file runs in an empty environment, so a file is known by its
path and the value its chunk returns.  Objects are known by addresses that are never
used again; an object that is replaced is no longer in the list of protocols.

`ArgRequest` is what an entry of an argument list asks of the registry, whatever is in it.
-/

namespace SimpleModule

open Octets Exits

/-- The values of `cur_char`. -/
inductive CurChar
  | client
  | server
  deriving DecidableEq, Repr

/-- What `load` gets from a file, in the order of its checks. -/
inductive FileContent
  | unreadable
  | loadError
  | runError
  | returns (value : LuaValue)

/-- A description file. -/
structure DescFile where
  path : Bytes
  content : FileContent

/--
The constants of a process: its side, the names of the maker and the caller table, and
what the call of a constructor for default functions leaves on the stack.
-/
structure Setup where
  curChar : CurChar
  forMaker : Bytes
  forCaller : Bytes
  numerals : Numerals
  callConstructor : LuaValue → Bytes → LuaValue

/--
The state of a process with one manager: `_s_args`, the globals of Lua, `_s_protos` and
the address of the next object.  `files` records the file of each protocol; the code has
no such list.
-/
structure World where
  args : List ArgObj
  globals : List (LuaKey × LuaValue)
  protos : List NetProtocol
  files : List (Option DescFile)
  nextSelf : ℕ

namespace World

/-- A global variable. -/
def global (world : World) (name : Bytes) : LuaValue :=
  (LuaValue.table world.globals).field (.string name)

def setGlobal (world : World) (name : Bytes) (value : LuaValue) : World :=
  { world with globals := LuaValue.setField world.globals (.string name) value }

/-- The state after the constructor of the manager, which puts an object at the id zero. -/
def init (args : List ArgObj) (globals : List (LuaKey × LuaValue)) : World :=
  ⟨args, globals, [⟨0, 0, [], [], none, false⟩], [none], 1⟩

end World

namespace NetProtocol

/-! ## The role of a protocol -/

/-- `std::string::npos`. -/
def npos : ℕ := 2 ^ 64 - 1

/-- `std::string::find_last_of` for one character. -/
def findLastOf (char : Byte) (name : Bytes) : ℕ :=
  match name.reverse.findIdx? (· = char) with
  | none => npos
  | some distance => name.length - 1 - distance

/--
`process_type`: the function name and whether this side implements it.  Positions are
unsigned, so that the comparisons with zero are never true.
-/
def processType (curChar : CurChar) (path : Bytes) : Option (Bytes × Bool) :=
  let name := cString path
  let slash := findLastOf 47 name
  let beginPos := if slash < 0 then findLastOf 92 name else slash
  let endPos := findLastOf 46 name
  if beginPos < 0 ∨ endPos < 0 ∨ beginPos ≥ endPos then none
  else
    let packFuncName := (name.drop (beginPos + 1)).take (endPos - (beginPos + 1))
    if packFuncName.take 2 = ofString "c_" then some (packFuncName, curChar = .client)
    else if packFuncName.take 2 = ofString "s_" then some (packFuncName, curChar = .server)
    else none

/-- The function name after a description was read, which may override it. -/
def describedName (numerals : Numerals) (desc : LuaValue) (name : Bytes) : Bytes :=
  match (desc.field (.string (ofString "func_name"))).toBytes numerals with
  | some text => cString text
  | none => name

/-! ## The function of a protocol -/

/-- The function in the maker table, if there is one. -/
def makerFunc (setup : Setup) (world : World) (name : Bytes) : Option LuaValue :=
  if (world.global setup.forMaker).isTable then
    let value := (world.global setup.forMaker).field (.string name)
    if value.isFunction then some value else none
  else none

theorem isFunction_of_makerFunc {setup : Setup} {world : World} {name : Bytes}
    {handler : LuaValue} (found : makerFunc setup world name = some handler) :
    handler.isFunction = true := by
  simp only [makerFunc] at found
  split_ifs at found with isTable isFunction
  exact Option.some.inj found ▸ isFunction

/-- The constructor for default functions, if there is one. -/
def defaultConstructor (world : World) : Option LuaValue :=
  let value := world.global (ofString "construc_default_rpcfunc")
  if value.isFunction then some value else none

/-- The branch of `func_proc` on the implementing side. -/
def bindFunc (setup : Setup) (proto : NetProtocol) : Program World (Option NetProtocol) := do
  match ← .get fun world => makerFunc setup world proto.packFuncName with
  | some handler => return some { proto with unpackRef := some handler }
  | none =>
      match ← .get defaultConstructor with
      | none => return if proto.unpackRef.isSome then some proto else none
      | some constructor =>
          let handler := setup.callConstructor constructor proto.packFuncName
          if handler.isFunction then return some { proto with unpackRef := some handler }
          else .exit .abort

/-- The caller table with a closure under a name; a table is made if there is none. -/
def storeClosure (setup : Setup) (name : Bytes) (self : ℕ) (world : World) : World :=
  match world.global setup.forCaller with
  | .table fields =>
      world.setGlobal setup.forCaller
        (.table (LuaValue.setField fields (.string name) (.packClosure self)))
  | _ =>
      world.setGlobal setup.forCaller
        (.table (LuaValue.setField [] (.string name) (.packClosure self)))

/-- `func_proc`; the result is absent for `PROTO_ERROR`. -/
def funcProc (setup : Setup) (proto : NetProtocol) : Program World (Option NetProtocol) :=
  if proto.isMaker then bindFunc setup proto
  else do
    .modify (storeClosure setup proto.packFuncName proto.self)
    return some proto

/-! ## The arguments of a protocol -/

/-- One turn of the loop in `arglist_proc`, on the registry of formats. -/
def readArg (numerals : Numerals) (desc : LuaValue) :
    Program (List ArgObj) (Option ArgObj) := do
  if desc.isTable then
    match (desc.index 2).toBytes numerals with
    | none => .exit .raise
    | some text =>
        if (desc.index 3).isNumber numerals then
          let arrayLen := number2int ((desc.index 3).toNumber numerals)
          if arrayLen < 0 ∨ arrayLen > 255 then return none
          else
            match ← .get fun args => getArg args text with
            | none => .exit .fault
            | some base => do
                let arg : ArgObj := ⟨ofString "array",
                  ofString "array" ++ cString text ++ base.hashstr, .array base.codec arrayLen⟩
                .modify fun args => args ++ [arg]
                return some arg
        else .get fun args => getArg args text
  else return none

/-- The loop in `arglist_proc`. -/
def readArgs (numerals : Numerals) :
    List LuaValue → Program (List ArgObj) (Option (List ArgObj))
  | [] => return some []
  | desc :: rest => do
      match ← readArg numerals desc with
      | none => return none
      | some arg =>
          match ← readArgs numerals rest with
          | none => return none
          | some args => return some (arg :: args)

def arglistProc (numerals : Numerals) (desc : LuaValue) :
    Program (List ArgObj) (Option (List ArgObj)) :=
  let argList := desc.field (.string (ofString "arg_list"))
  if argList.isTable then
    readArgs numerals ((List.range argList.objlen).map fun i : ℕ => argList.index (i + 1))
  else return none

/-! ### What an entry asks for -/

/-- What an entry of an argument list asks for. -/
inductive ArgRequest
  | rejected
  | unnamed
  | named (text : Bytes)
  | array (text : Bytes) (size : ℤ)

def argRequest (numerals : Numerals) (desc : LuaValue) : ArgRequest :=
  if desc.isTable then
    match (desc.index 2).toBytes numerals with
    | none => .unnamed
    | some text =>
        if (desc.index 3).isNumber numerals then
          let arrayLen := number2int ((desc.index 3).toNumber numerals)
          if arrayLen < 0 ∨ arrayLen > 255 then .rejected else .array text arrayLen
        else .named text
  else .rejected

/-- The object that `new fcall_array_arg` makes. -/
def arrayArg (text : Bytes) (base : ArgObj) (size : ℤ) : ArgObj :=
  ⟨ofString "array", ofString "array" ++ cString text ++ base.hashstr, .array base.codec size⟩

/-- The answer of the registry, and the registry afterwards. -/
def ArgRequest.answer (args : List ArgObj) :
    ArgRequest → Exit (Option ArgObj) × List ArgObj
  | .rejected => (.ret none, args)
  | .unnamed => (.raise, args)
  | .named text => (.ret (getArg args text), args)
  | .array text size =>
      match getArg args text with
      | none => (.fault, args)
      | some base => (.ret (some (arrayArg text base size)), args ++ [arrayArg text base size])

theorem readArg_eq (numerals : Numerals) (desc : LuaValue) (args : List ArgObj) :
    readArg numerals desc args = (argRequest numerals desc).answer args := by
  by_cases isTable : desc.isTable = true
  · rcases named : (desc.index 2).toBytes numerals with _ | text
    · simp [argRequest, readArg, isTable, named, ArgRequest.answer]
    · by_cases sized : (desc.index 3).isNumber numerals = true
      · by_cases invalid : number2int ((desc.index 3).toNumber numerals) < 0 ∨
            number2int ((desc.index 3).toNumber numerals) > 255
        · simp [argRequest, readArg, isTable, named, sized, invalid, ArgRequest.answer]
        · rcases found : getArg args text with _ | base
          · simp [argRequest, readArg, isTable, named, sized, invalid, found, ArgRequest.answer,
              Program.bind_apply]
          · simp [argRequest, readArg, isTable, named, sized, invalid, found, ArgRequest.answer,
              Program.bind_apply, arrayArg]
      · simp [argRequest, readArg, isTable, named, sized, ArgRequest.answer]
  · simp [argRequest, readArg, isTable, ArgRequest.answer]

/-! ## The whole of a protocol -/

/-- `convert_protocol` after the function name is known. -/
def procTable (setup : Setup) (proto : NetProtocol) (desc : LuaValue) :
    Program World (Option NetProtocol) := do
  match ← funcProc setup proto with
  | none => return none
  | some bound =>
      match ← .focus World.args (fun world args => { world with args := args })
          (arglistProc setup.numerals desc) with
      | none => return none
      | some args => return some { bound with args := args }

/-- `convert_protocol` on the value that the chunk of the file has returned. -/
def convertProtocol (setup : Setup) (proto : NetProtocol) (desc : LuaValue) :
    Program World (Option NetProtocol) :=
  if desc.isTable then
    procTable setup { proto with
      packFuncName := describedName setup.numerals desc proto.packFuncName } desc
  else return none

def load (setup : Setup) (proto : NetProtocol) (file : DescFile) :
    Program World (Option NetProtocol) :=
  match processType setup.curChar file.path, file.content with
  | some (packFuncName, isMaker), .returns desc =>
      convertProtocol setup { proto with packFuncName := packFuncName, isMaker := isMaker } desc
  | _, _ => return none

/-- `new net_protocol`. -/
def create (id : ℕ) : Program World NetProtocol := do
  let self ← .get World.nextSelf
  .modify fun world => { world with nextSelf := world.nextSelf + 1 }
  return ⟨self, id, [], [], none, false⟩

/-! ## What a file says -/

/-- What a file says to a side, if its loading gets as far as the function. -/
def described (setup : Setup) (file : DescFile) : Option (Bytes × Bool × LuaValue) :=
  match processType setup.curChar file.path, file.content with
  | some (name, isMaker), .returns desc =>
      if desc.isTable then some (describedName setup.numerals desc name, isMaker, desc) else none
  | _, _ => none

/-- The object with the name and the role that a file gives it. -/
def withRole (proto : NetProtocol) (name : Bytes) (isMaker : Bool) : NetProtocol :=
  { proto with packFuncName := name, isMaker := isMaker }

theorem load_eq (setup : Setup) (proto : NetProtocol) (file : DescFile) :
    proto.load setup file =
      match described setup file with
      | none => pure none
      | some (name, isMaker, desc) => procTable setup (proto.withRole name isMaker) desc := by
  unfold load described
  rcases processType setup.curChar file.path with _ | ⟨name, isMaker⟩
  · rfl
  · cases file.content with
    | unreadable => rfl
    | loadError => rfl
    | runError => rfl
    | returns desc =>
        simp only [convertProtocol]
        split_ifs with isTable
        · rfl
        · rfl

/-- A successful load has gone through the function and the arguments. -/
theorem load_eq_some {setup : Setup} {proto new : NetProtocol} {file : DescFile}
    {world after : World} (returns : proto.load setup file world = (.ret (some new), after)) :
    ∃ name isMaker desc bound stored args registry,
      described setup file = some (name, isMaker, desc) ∧
      funcProc setup (proto.withRole name isMaker) world = (.ret (some bound), stored) ∧
      arglistProc setup.numerals desc stored.args = (.ret (some args), registry) ∧
      new = { bound with args := args } ∧ after = { stored with args := registry } := by
  rw [load_eq] at returns
  rcases read : described setup file with _ | ⟨name, isMaker, desc⟩
  · rw [read] at returns
    cases returns
  · simp only [read, procTable, Program.bind_eq_ret_iff] at returns
    rcases returns with ⟨function, stored, processed, returns⟩
    cases function with
    | none => cases returns
    | some bound =>
        rcases Program.bind_eq_ret_iff.mp returns with ⟨arguments, last, listed, returns⟩
        cases arguments with
        | none => cases returns
        | some args =>
            rw [Program.focus, Prod.mk.injEq] at listed
            rcases listed with ⟨listed, rfl⟩
            cases returns
            exact ⟨name, isMaker, desc, bound, stored, args, _, rfl, processed,
              Prod.ext listed rfl, rfl, rfl⟩

end NetProtocol

namespace ProtoManager

/-- A new object is loaded and, on success, put into the list of protocols. -/
def loadNew (setup : Setup) (id : ℕ) (file : DescFile) (install : NetProtocol → World → World) :
    Program World Bool := do
  let proto ← NetProtocol.create id
  match ← proto.load setup file with
  | some proto => do
      .modify (install proto)
      return true
  | none => return false

/-- `add_protocol`, and whether it succeeds. -/
def addProtocol (setup : Setup) (file : DescFile) : Program World Bool := do
  let protoId ← .get fun world => world.protos.length
  if protoId > 0 then
    loadNew setup protoId file fun proto world => { world with
      protos := world.protos ++ [proto], files := world.files ++ [some file] }
  else .exit .abort

/-- The id that `update_protocol` takes from its argument. -/
def updateId (setup : Setup) (idArg : LuaValue) : ℕ :=
  let value := idArg.toNumber setup.numerals
  unsigned32 (value.num.tdiv value.den)

/-- `update_protocol` with the value given for the id, and whether it succeeds. -/
def updateProtocol (setup : Setup) (idArg : LuaValue) (file : DescFile) :
    Program World Bool := do
  if idArg.isNumber setup.numerals then
    let protoId := updateId setup idArg
    if protoId < (← .get fun world => world.protos.length) then
      loadNew setup protoId file fun proto world => { world with
        protos := world.protos.set protoId proto, files := world.files.set protoId (some file) }
    else return false
  else return false

end ProtoManager

end SimpleModule
