import SimpleModule.Protocol.Rpc

/-!
# Objects and formats after any load

Loads may fail, and scripts go on after their errors.  Whatever the globals of the script are,
the registered objects stay at addresses of their own under their ids, and all formats stay
those of balanced types: also the arrays that a failed load leaves behind, and the arguments of
every registered object.
-/

namespace SimpleModule

open Octets Exits Runs ArgType

namespace NetProtocol

/-! ## Formats after any load -/

theorem registered_readArg (numerals : Numerals) (desc : LuaValue) {args : List ArgObj}
    (registered : Registered args) : Registered (readArg numerals desc args).2 := by
  rcases request : argRequest numerals desc with _ | _ | text | ⟨text, size⟩
  · rw [readArg_eq, request]
    exact registered
  · rw [readArg_eq, request]
    exact registered
  · rw [readArg_eq, request]
    exact registered
  · rcases found : getArg args text with _ | base
    · rw [readArg_eq, request, ArgRequest.answer, found]
      exact registered
    · have returned : readArg numerals desc args = (.ret (some (arrayArg text base size)),
          args ++ [arrayArg text base size]) := by
        rw [readArg_eq, request, ArgRequest.answer, found]
      rw [returned]
      intro arg member
      rcases readArg_ret returned with ⟨-, same⟩ | ⟨element, among, _, count, -, made, -⟩
      · rw [same] at member
        exact registered arg member
      · rcases List.mem_append.mp member with old | new
        · exact registered arg old
        · rcases registered element among with ⟨type, balanced, compiled⟩
          rw [List.mem_singleton] at new
          exact ⟨.array type count, balanced, by rw [new, made, arrayArg, compiled, compile]⟩

/-- However the loop ends, it leaves formats of balanced types. -/
theorem registered_readArgs (numerals : Numerals) (entries : List LuaValue) (args : List ArgObj) :
    Registered args → Registered (readArgs numerals entries args).2 := by
  have trans {first second third : List ArgObj} (before : Registered first → Registered second)
      (after : Registered second → Registered third) : Registered first → Registered third :=
    after ∘ before
  induction entries generalizing args with
  | nil => exact fun still => still
  | cons desc rest ih =>
      rw [readArgs]
      apply Program.bind_kept (fun before after => Registered before → Registered after) trans
        (registered_readArg numerals desc)
      intro arg between
      cases arg with
      | none => exact fun still => still
      | some arg =>
          apply Program.bind_kept (fun before after => Registered before → Registered after) trans
            (ih between)
          intro list after
          cases list with
          | none => exact fun still => still
          | some list => exact fun still => still

theorem registered_arglistProc (numerals : Numerals) (desc : LuaValue) {args : List ArgObj}
    (registered : Registered args) : Registered (arglistProc numerals desc args).2 := by
  unfold arglistProc
  split_ifs
  · exact registered_readArgs numerals _ args registered
  · exact registered

/-- A later state has formats of balanced types only, if an earlier one has. -/
def KeepsRegistered (world after : World) : Prop := Registered world.args → Registered after.args

theorem KeepsRegistered.trans {first second third : World} (before : KeepsRegistered first second)
    (after : KeepsRegistered second third) : KeepsRegistered first third :=
  after ∘ before

theorem keepsRegistered_of_same {world after : World} (same : after.args = world.args) :
    KeepsRegistered world after := by
  intro registered
  rw [same]
  exact registered

/-- However a load ends, it leaves formats of balanced types. -/
theorem keepsRegistered_load (setup : Setup) (proto : NetProtocol) (file : DescFile)
    (world : World) : KeepsRegistered world (proto.load setup file world).2 := by
  rw [load_eq]
  rcases described setup file with _ | ⟨name, isMaker, desc⟩
  · exact keepsRegistered_of_same rfl
  · simp only [procTable]
    apply Program.bind_kept KeepsRegistered KeepsRegistered.trans
      (keepsRegistered_of_same (args_funcProc setup _ world))
    intro bound stored
    cases bound with
    | none => exact keepsRegistered_of_same rfl
    | some bound =>
        have listed : KeepsRegistered stored (Program.focus World.args
            (fun world args => { world with args := args })
            (arglistProc setup.numerals desc) stored).2 :=
          registered_arglistProc setup.numerals desc
        apply Program.bind_kept KeepsRegistered KeepsRegistered.trans listed
        intro list after
        cases list with
        | none => exact keepsRegistered_of_same rfl
        | some list => exact keepsRegistered_of_same rfl

theorem keepsRegistered_loadNew (setup : Setup) (id : ℕ) (file : DescFile)
    {install : NetProtocol → World → World}
    (kept : ∀ proto world, (install proto world).args = world.args) (world : World) :
    KeepsRegistered world (ProtoManager.loadNew setup id file install world).2 := by
  unfold ProtoManager.loadNew
  apply Program.bind_kept KeepsRegistered KeepsRegistered.trans (keepsRegistered_of_same rfl)
  intro proto created
  apply Program.bind_kept KeepsRegistered KeepsRegistered.trans
    (keepsRegistered_load setup proto file created)
  intro loaded after
  cases loaded with
  | none => exact keepsRegistered_of_same rfl
  | some new => exact keepsRegistered_of_same (kept new after)

end NetProtocol

namespace ProtoManager

open NetProtocol

/-! ## Formats of registered objects -/

/-- All formats are those of balanced types, also those of the registered objects. -/
structure Formatted (world : World) : Prop where
  registered : Registered world.args
  sound : ∀ proto ∈ world.protos, ∃ types, proto.Sound types

theorem formatted_init {args : List ArgObj} (registered : Registered args)
    (globals : List (LuaKey × LuaValue)) : Formatted (.init args globals) := by
  refine ⟨registered, ?_⟩
  intro proto member
  rw [World.init, List.mem_singleton] at member
  rw [member]
  exact ⟨[], rfl, by simp, by simp⟩

theorem args_install (setup : Setup) (call : Call) (proto : NetProtocol) (world : World) :
    (call.install setup proto world).args = world.args := by
  rw [Call.install_eq]

theorem mem_place {setup : Setup} {call : Call} {entries : List NetProtocol}
    {new proto : NetProtocol} (member : proto ∈ call.place setup entries new) :
    proto ∈ entries ∨ proto = new := by
  cases call with
  | add file => simpa [Call.place] using member
  | update idArg file => exact List.mem_or_eq_of_mem_set member

theorem Formatted.attempt {setup : Setup} {world after : World} {call : Call}
    (formatted : Formatted world) (started : 0 < world.protos.length)
    (stepped : attempt setup world call = some after) : Formatted after := by
  have returned := attempt_program stepped
  constructor
  · rw [← returned, program_eq started]
    split_ifs
    · exact keepsRegistered_loadNew setup _ _ (args_install setup call) world formatted.registered
    · exact formatted.registered
  · intro proto member
    rcases attempt_cases started stepped with ⟨succeeds, -⟩ | ⟨-, lingers⟩
    · have whole : call.program setup world = (.ret true, after) := Prod.ext succeeds returned
      rw [program_eq started] at whole
      split_ifs at whole
      · rcases Program.bind_eq_ret_iff.mp whole with ⟨fresh, begun, created, loading⟩
        cases created
        rcases Program.bind_eq_ret_iff.mp loading with ⟨loaded, stored, loads, installs⟩
        cases loaded with
        | none => cases installs
        | some new =>
            cases installs
            have callable := load_callable rfl loads
            have begunArgs : Registered
                { world with nextSelf := world.nextSelf + 1 }.args := formatted.registered
            rcases load_formats begunArgs loads with ⟨⟨types, formats⟩, -⟩
            rcases load_ret loads with ⟨-, -, -, registry, rfl⟩
            rw [Call.install_eq, (protos_functionStored setup new _).1] at member
            rcases mem_place member with old | rfl
            · exact formatted.sound proto old
            · exact ⟨types, formats.formats, formats.balanced, callable⟩
      · cases whole
    · rw [lingers.protos] at member
      exact formatted.sound proto member

end ProtoManager

end SimpleModule
