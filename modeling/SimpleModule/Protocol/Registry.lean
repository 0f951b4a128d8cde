import SimpleModule.Protocol.Failures

/-!
# The registry of formats

`fcall_arg_manager` keeps all formats of a process in one list.  `arglist_proc` looks the
types of arguments up by name and adds a format for each array; `add_table_args` adds the
format that a file describes.  Nothing but the destruction of a manager takes a format out
again.
-/

namespace SimpleModule

open Octets Exits

namespace NetProtocol

/-! ## Arguments -/

/-- What the registry has gained by an answer: nothing, or an array of one of its formats. -/
theorem ArgRequest.answer_grows (request : ArgRequest) (args : List ArgObj) :
    (request.answer args).2 = args ∨
      ∃ text size, ∃ base ∈ args, getArg args text = some base ∧
        (request.answer args).2 = args ++ [arrayArg text base size] := by
  cases request with
  | rejected => exact .inl rfl
  | unnamed => exact .inl rfl
  | named text => exact .inl rfl
  | array text size =>
      rw [answer]
      rcases found : getArg args text with _ | base
      · exact .inl rfl
      · exact .inr ⟨text, size, base, List.mem_of_find?_eq_some found, found, rfl⟩

/-- Some formats are arrays of earlier ones under the name of arrays. -/
inductive GrowsByArrays : List ArgObj → List ArgObj → Prop
  | refl (args : List ArgObj) : GrowsByArrays args args
  | array {args after : List ArgObj} {base : ArgObj} (text : Bytes) (size : ℤ)
      (member : base ∈ args) (later : GrowsByArrays (args ++ [arrayArg text base size]) after) :
      GrowsByArrays args after

theorem GrowsByArrays.trans {args between after : List ArgObj}
    (first : GrowsByArrays args between) (second : GrowsByArrays between after) :
    GrowsByArrays args after := by
  induction first with
  | refl => exact second
  | array text size member later ih => exact .array text size member (ih second)

theorem growsByArrays_readArg (numerals : Numerals) (desc : LuaValue) (args : List ArgObj) :
    GrowsByArrays args (readArg numerals desc args).2 := by
  rw [readArg_eq]
  rcases (argRequest numerals desc).answer_grows args with
    same | ⟨text, size, base, member, -, more⟩
  · rw [same]
    exact .refl args
  · rw [more]
    exact .array text size member (.refl _)

/-- However the loop ends, the registry has only gained arrays. -/
theorem growsByArrays_readArgs (numerals : Numerals) (entries : List LuaValue)
    (args : List ArgObj) : GrowsByArrays args (readArgs numerals entries args).2 := by
  induction entries generalizing args with
  | nil => exact .refl args
  | cons desc rest ih =>
      rw [readArgs]
      apply Program.bind_kept GrowsByArrays GrowsByArrays.trans
        (growsByArrays_readArg numerals desc args)
      intro arg between
      cases arg with
      | none => exact .refl between
      | some arg =>
          apply Program.bind_kept GrowsByArrays GrowsByArrays.trans (ih between)
          intro list after
          cases list with
          | none => exact .refl after
          | some list => exact .refl after

theorem growsByArrays_arglistProc (numerals : Numerals) (desc : LuaValue) (args : List ArgObj) :
    GrowsByArrays args (arglistProc numerals desc args).2 := by
  unfold arglistProc
  split_ifs
  · exact growsByArrays_readArgs numerals _ args
  · exact .refl args

section Grows

variable {args after : List ArgObj}

theorem GrowsByArrays.append (grows : GrowsByArrays args after) :
    ∃ more, after = args ++ more ∧ ∀ arg ∈ more, arg.typeName = ofString "array" := by
  induction grows with
  | refl args => exact ⟨[], by simp, by simp⟩
  | @array args after base text size member later ih =>
      rcases ih with ⟨more, rfl, named⟩
      refine ⟨arrayArg text base size :: more, by simp, ?_⟩
      intro arg among
      rcases List.mem_cons.mp among with rfl | old
      · rfl
      · exact named arg old

/-- What holds for the formats and for arrays of them goes on to hold. -/
theorem GrowsByArrays.all {good : FcallArg → Prop}
    (array : ∀ base size, good base → good (.array base size))
    (grows : GrowsByArrays args after) (all : ∀ arg ∈ args, good arg.codec) :
    ∀ arg ∈ after, good arg.codec := by
  induction grows with
  | refl args => exact all
  | @array args after base text size member later ih =>
      apply ih
      intro arg among
      rw [List.mem_append, List.mem_singleton] at among
      rcases among with old | rfl
      · exact all arg old
      · exact array base.codec size (all base member)

end Grows

/-! ## Loads -/

/-- The registry of a later state has only gained arrays. -/
def ArgsGrow (world after : World) : Prop := GrowsByArrays world.args after.args

theorem ArgsGrow.trans {first second third : World} (before : ArgsGrow first second)
    (after : ArgsGrow second third) : ArgsGrow first third :=
  GrowsByArrays.trans before after

theorem argsGrow_of_same {world after : World} (same : after.args = world.args) :
    ArgsGrow world after := by
  rw [ArgsGrow, same]
  exact .refl _

theorem args_storeClosure (setup : Setup) (name : Bytes) (self : ℕ) (world : World) :
    (storeClosure setup name self world).args = world.args := by
  unfold storeClosure
  split
  · rfl
  · rfl

theorem argsGrow_funcProc (setup : Setup) (proto : NetProtocol) (world : World) :
    ArgsGrow world (funcProc setup proto world).2 := by
  unfold funcProc
  split_ifs
  · unfold bindFunc
    apply Program.bind_kept ArgsGrow ArgsGrow.trans (argsGrow_of_same rfl)
    intro found after
    cases found with
    | some handler => exact argsGrow_of_same rfl
    | none =>
        apply Program.bind_kept ArgsGrow ArgsGrow.trans (argsGrow_of_same rfl)
        intro constructor last
        cases constructor with
        | none => exact argsGrow_of_same rfl
        | some constructor =>
            simp only
            split_ifs
            · exact argsGrow_of_same rfl
            · exact argsGrow_of_same rfl
  · apply argsGrow_of_same
    exact args_storeClosure setup proto.packFuncName proto.self world

/-- However a load ends, the registry has only gained arrays. -/
theorem argsGrow_load (setup : Setup) (proto : NetProtocol) (file : DescFile) (world : World) :
    ArgsGrow world (proto.load setup file world).2 := by
  rw [load_eq]
  rcases described setup file with _ | ⟨name, isMaker, desc⟩
  · exact argsGrow_of_same rfl
  · simp only [procTable]
    apply Program.bind_kept ArgsGrow ArgsGrow.trans (argsGrow_funcProc setup _ world)
    intro bound stored
    cases bound with
    | none => exact argsGrow_of_same rfl
    | some bound =>
        have listed : ArgsGrow stored (Program.focus World.args
            (fun world args => { world with args := args })
            (arglistProc setup.numerals desc) stored).2 :=
          growsByArrays_arglistProc setup.numerals desc stored.args
        apply Program.bind_kept ArgsGrow ArgsGrow.trans listed
        intro list after
        cases list with
        | none => exact argsGrow_of_same rfl
        | some list => exact argsGrow_of_same rfl

theorem argsGrow_loadNew (setup : Setup) (id : ℕ) (file : DescFile)
    {install : NetProtocol → World → World}
    (kept : ∀ proto world, (install proto world).args = world.args) (world : World) :
    ArgsGrow world (ProtoManager.loadNew setup id file install world).2 := by
  unfold ProtoManager.loadNew
  apply Program.bind_kept ArgsGrow ArgsGrow.trans (argsGrow_of_same rfl)
  intro proto created
  apply Program.bind_kept ArgsGrow ArgsGrow.trans (argsGrow_load setup proto file created)
  intro loaded after
  cases loaded with
  | none => exact argsGrow_of_same rfl
  | some new => exact argsGrow_of_same (kept new after)

theorem argsGrow_program (setup : Setup) (call : ProtoManager.Call) (world : World) :
    ArgsGrow world (call.program setup world).2 := by
  cases call with
  | add file =>
      simp only [ProtoManager.Call.program, ProtoManager.addProtocol]
      apply Program.bind_kept ArgsGrow ArgsGrow.trans (argsGrow_of_same rfl)
      intro protoId after
      split_ifs
      · apply argsGrow_loadNew
        intro proto world
        rfl
      · exact argsGrow_of_same rfl
  | update idArg file =>
      simp only [ProtoManager.Call.program, ProtoManager.updateProtocol]
      split_ifs
      · apply Program.bind_kept ArgsGrow ArgsGrow.trans (argsGrow_of_same rfl)
        intro count after
        split_ifs
        · apply argsGrow_loadNew
          intro proto world
          rfl
        · exact argsGrow_of_same rfl
      · exact argsGrow_of_same rfl

end NetProtocol

/-! ## Table types -/

/-- What `_read_format` gets from a file, in the order of its checks. -/
inductive TableFile
  | unreadable
  | loadError
  | runError
  | returns (typeName sample : LuaValue)

namespace FcallArgManager

/-- The object whose format could not be read: its fields are those of the base class. -/
def baseArg : ArgObj := ⟨ofString "base", ofString "base", .table []⟩

/-- `_read_format` on a new object, once the name of the type is known. -/
def readSample (numerals : Numerals) (args : List ArgObj) (typeName : Bytes) :
    LuaValue → Exit ArgObj
  | .table fields =>
      match travelTable numerals args fields ⟨0, [], typeName⟩ with
      | (.ret _, travel) => .ret ⟨typeName, travel.hashstr, .table travel.opcodes⟩
      | (.raise, _) => .raise
      | (.abort, _) => .abort
      | (.fault, _) => .fault
  | _ => .ret ⟨typeName, typeName, .table []⟩

/--
What `_read_format` makes of a new object.  The name of the type is checked by
`luaL_checkstring`, which does not return for other values.
-/
def readFormat (numerals : Numerals) (args : List ArgObj) : TableFile → Exit ArgObj
  | .unreadable => .ret baseArg
  | .loadError => .ret baseArg
  | .runError => .ret baseArg
  | .returns typeName sample =>
      match typeName.toBytes numerals with
      | none => .raise
      | some text => readSample numerals args (cString text) sample

/-- `new fcall_table_arg`, which does not look at the result of `_read_format`. -/
def newTableArg (numerals : Numerals) (file : TableFile) : Program (List ArgObj) ArgObj :=
  fun args => (readFormat numerals args file, args)

/-- `add_table_args`, the whole of `add_arg_type`. -/
def addTableArgs (numerals : Numerals) (file : TableFile) : Program (List ArgObj) Unit := do
  let arg ← newTableArg numerals file
  .modify fun args => args ++ [arg]

theorem addTableArgs_eq (numerals : Numerals) (file : TableFile) (args : List ArgObj) :
    addTableArgs numerals file args =
      match readFormat numerals args file with
      | .ret arg => (.ret (), args ++ [arg])
      | .raise => (.raise, args)
      | .abort => (.abort, args)
      | .fault => (.fault, args) := by
  rw [addTableArgs, Program.bind_apply, newTableArg]
  rcases readFormat numerals args file with arg | _ | _ | _
  · rfl
  · rfl
  · rfl
  · rfl

end FcallArgManager

end SimpleModule
