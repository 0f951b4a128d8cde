import SimpleModule.Protocol.Agreement
import SimpleModule.Protocol.StackBound

/-!
# The slots that Lua guarantees

`unpack` of a protocol reads its arguments one above the other, so the slots of a protocol
follow from those of its formats.  The formats of a manager come from descriptions, and
whatever the descriptions are, a table stays open while its opcodes are run.  A C function
has `LUA_MINSTACK` slots without asking for more.
-/

namespace SimpleModule

open Octets Exits Runs

namespace NetProtocol

open FcallArg

/-! ## Metered protocols -/

def meteredArgs (top : ℤ) (buf : Bytes) (bufLen : ℤ) (finish : ℤ → Metered LuaState ℤ) :
    List ArgObj → (readedLen : ℤ) → Metered LuaState ℤ
  | [], readedLen => finish readedLen
  | arg :: rest, readedLen => do
      let curReaded ← arg.codec.meteredUnpack (buf.drop readedLen.toNat) (bufLen - readedLen)
      if curReaded = 0 then do
        Lua.op (Lua.settop top)
        return errorUnpackFormat
      else meteredArgs top buf bufLen finish rest (readedLen + curReaded)

/-- The slots that the called function uses itself are its own. -/
def meteredCallHandler (numerals : Numerals) (script : Lua.Script) (top : ℤ) (count : ℕ)
    (readedLen : ℤ) : Metered LuaState ℤ := do
  if ← Lua.op (Lua.pcall script count) then do
    let _ ← Lua.op (Lua.checklstring numerals (-1))
    Lua.op (Lua.settop top)
    return errorUnpackScript
  else do
    Lua.op (Lua.settop top)
    return readedLen

/-- `unpack` with a meter on the height of the stack. -/
def meteredUnpack (numerals : Numerals) (script : Lua.Script) (proto : NetProtocol) (buf : Bytes)
    (bufLen ext : ℤ) : Metered LuaState ℤ := do
  let top ← Lua.op Lua.gettop
  match proto.unpackRef with
  | none => return errorUnpackFormat
  | some handler => do
      Lua.op (Lua.push handler)
      Lua.op (Lua.assert handler.isFunction)
      Lua.op (Lua.push (.number ext))
      meteredArgs top buf bufLen (meteredCallHandler numerals script top (proto.args.length + 1))
        proto.args 0

theorem erase_meteredArgs {metered : ℤ → Metered LuaState ℤ} {finish : ℤ → LuaM ℤ}
    (finishes : ∀ last, (metered last).erase = finish last) (top : ℤ) (buf : Bytes) (bufLen : ℤ)
    (args : List ArgObj) (readedLen : ℤ) :
    (meteredArgs top buf bufLen metered args readedLen).erase =
      unpackArgs top buf bufLen finish args readedLen := by
  induction args generalizing readedLen with
  | nil => exact finishes readedLen
  | cons arg rest ih =>
      rw [meteredArgs, unpackArgs]
      simp [erase_ite, FcallArg.erase_meteredUnpack, ih]

theorem erase_meteredCallHandler (numerals : Numerals) (script : Lua.Script) (top : ℤ) (count : ℕ)
    (readedLen : ℤ) : (meteredCallHandler numerals script top count readedLen).erase =
      callHandler numerals script top count readedLen := by
  rw [meteredCallHandler, callHandler]
  simp [erase_ite, afterCall]

/-- The meter only watches. -/
theorem erase_meteredUnpack (numerals : Numerals) (script : Lua.Script) (proto : NetProtocol)
    (buf : Bytes) (bufLen ext : ℤ) :
    (proto.meteredUnpack numerals script buf bufLen ext).erase =
      proto.unpack numerals script buf bufLen ext := by
  rw [meteredUnpack, unpack]
  rcases proto.unpackRef with _ | handler
  · simp
  · simp [erase_meteredArgs (erase_meteredCallHandler numerals script _ _)]

/-! ## What a protocol needs -/

/-- The height that the loop over the arguments reaches for the worst buffer. -/
def argsUse : List ArgObj → (height : ℕ) → ℕ
  | [], height => height
  | arg :: rest, height =>
      max (height + arg.codec.stackUse)
        (if arg.codec.accepts then argsUse rest (height + (2 * arg.codec.leftOpen + 1)) else 0)

/-- The slots that `unpack` needs for the worst buffer. -/
def stackUse (proto : NetProtocol) : ℕ :=
  match proto.unpackRef with
  | none => 0
  | some handler => if handler.isFunction then argsUse proto.args 2 else 1

section Slots

variable {limit : ℕ} {state : LuaState}

theorem length_settop_le (top : ℕ) (state : LuaState) :
    (Lua.settop top state).2.stack.length ≤ top := by
  show (state.stack.drop (state.stack.length - (top : ℤ).toNat)).length ≤ top
  rw [List.length_drop, Int.toNat_natCast]
  omega

theorem peak_settop_le {top : ℕ} (lower : top ≤ limit) (result : ℤ) :
    (Lua.op (Lua.settop top) >>= fun _ => (pure result : Metered LuaState ℤ)).peak state ≤
      limit := by
  apply peak_op_le ((length_settop_le top state).trans lower)
  intro _ _ _
  exact Nat.zero_le limit

theorem length_stringStack (numerals : Numerals) (index : ℤ) (state : LuaState) :
    (stringStack numerals index state).length = state.stack.length := by
  rw [stringStack]
  split
  · exact List.length_set
  · rfl

theorem raisesBy_checklstring (numerals : Numerals) (index : ℤ) :
    RaisesBy 0 (Lua.checklstring numerals index) := by
  intro state
  rw [checklstring_eq]
  split
  · exact le_refl _
  · exact (length_stringStack numerals index state).le

theorem length_pcall_le (script : Lua.Script) (count : ℕ) (present : state.stack ≠ []) :
    (Lua.pcall script count state).2.stack.length ≤ state.stack.length := by
  have positive := List.length_pos_iff.mpr present
  rw [Lua.pcall]
  split
  · show (state.stack.drop (count + 1)).length ≤ _
    rw [List.length_drop]
    omega
  · show (_ :: state.stack.drop (count + 1)).length ≤ _
    rw [List.length_cons, List.length_drop]
    omega

theorem peak_meteredCallHandler_le (numerals : Numerals) (script : Lua.Script) {top : ℕ}
    (lower : top ≤ limit) (count : ℕ) (readedLen : ℤ) (present : state.stack ≠ [])
    (within : state.stack.length ≤ limit) :
    (meteredCallHandler numerals script top count readedLen).peak state ≤ limit := by
  have called := (length_pcall_le script count present).trans within
  apply peak_op_le called
  intro failed after returned
  rw [returned] at called
  cases failed with
  | true =>
      apply peak_op_le ((raisesBy_checklstring numerals (-1) after).trans called)
      intro _ _ _
      exact peak_settop_le lower _
  | false => exact peak_settop_le lower _

theorem peak_meteredArgs_le {finish : ℤ → Metered LuaState ℤ} {args : List ArgObj}
    (fillable : ∀ arg ∈ args, arg.codec.Fillable)
    (finishes : ∀ last after, after.stack ≠ [] → after.stack.length ≤ limit →
      (finish last).peak after ≤ limit)
    {top height : ℕ} (lower : top ≤ limit) (buf : Bytes) (bufLen readedLen : ℤ)
    (present : state.stack ≠ []) (start : state.stack.length = top + height)
    (most : top + argsUse args height ≤ limit) :
    (meteredArgs top buf bufLen finish args readedLen).peak state ≤ limit := by
  induction args generalizing readedLen state height with
  | nil => exact finishes readedLen state present (start.le.trans most)
  | cons arg rest ih =>
      have own := fillable arg (.head _)
      have needs := FcallArg.peak_meteredUnpack_le arg.codec own (buf.drop readedLen.toNat)
        (bufLen - readedLen) state
      rw [argsUse, ← Nat.add_max_add_left] at most
      rw [start, Nat.add_assoc] at needs
      apply Metered.peak_bind_le (needs.trans ((le_max_left _ _).trans most))
      intro curReaded after read
      rw [FcallArg.erase_meteredUnpack] at read
      split_ifs with gaveUp
      · exact peak_settop_le lower _
      · have behind := (le_max_right _ _).trans most
        rw [accepts_of_unpack arg.codec own read gaveUp, if_pos rfl] at behind
        have higher := adds_unpack arg.codec own _ _ _ _ _ read gaveUp
        refine ih (fun other member => fillable other (.tail _ member)) _ ?_ ?_ behind
        · apply List.ne_nil_of_length_pos
          omega
        · omega

theorem le_argsUse (args : List ArgObj) (height : ℕ) : height ≤ argsUse args height := by
  cases args with
  | nil => exact le_refl _
  | cons arg rest => exact le_max_of_le_left (Nat.le_add_right _ _)

theorem stackUse_eq {proto : NetProtocol} {handler : LuaValue}
    (bound : proto.unpackRef = some handler) :
    proto.stackUse = if handler.isFunction then argsUse proto.args 2 else 1 := by
  rw [stackUse, bound]

/-- `unpack` of a protocol needs no more slots than computed. -/
theorem peak_meteredUnpack_le {proto : NetProtocol}
    (fillable : ∀ arg ∈ proto.args, arg.codec.Fillable) (numerals : Numerals)
    (script : Lua.Script) (buf : Bytes) (bufLen ext : ℤ) (state : LuaState) :
    (proto.meteredUnpack numerals script buf bufLen ext).peak state ≤
      state.stack.length + proto.stackUse := by
  have entry : state.stack.length ≤ state.stack.length + proto.stackUse := Nat.le_add_right _ _
  apply peak_op_le entry
  intro top after returned
  cases returned
  rcases bound : proto.unpackRef with _ | handler
  · exact Nat.zero_le _
  · by_cases callable : handler.isFunction = true
    · have needs : proto.stackUse = argsUse proto.args 2 := by
        rw [stackUse_eq bound, if_pos callable]
      have least := le_argsUse proto.args 2
      rw [← needs] at least
      apply peak_op_le
      · show state.stack.length + 1 ≤ _
        omega
      · intro _ after returned
        cases returned
        apply peak_op_le
        · rw [Lua.assert_apply callable]
          show state.stack.length + 1 ≤ _
          omega
        · intro _ after returned
          rw [Lua.assert_apply callable] at returned
          cases returned
          apply peak_op_le
          · show state.stack.length + 2 ≤ _
            omega
          · intro _ after returned
            cases returned
            have two : state.stack.length + 1 + 1 = state.stack.length + 2 := rfl
            refine peak_meteredArgs_le fillable ?_ entry buf bufLen 0 (List.cons_ne_nil _ _) two ?_
            · intro last after present within
              exact peak_meteredCallHandler_le numerals script entry _ last present within
            · rw [needs]
    · have aborts : Lua.assert handler.isFunction
          ⟨handler :: state.stack, state.out, state.calls⟩ =
            (.abort, ⟨handler :: state.stack, state.out, state.calls⟩) := by
        rw [Lua.assert, if_neg callable]
        rfl
      have needs : proto.stackUse = 1 := by rw [stackUse_eq bound, if_neg callable]
      rw [needs]
      apply peak_op_le
      · exact le_refl _
      · intro _ after returned
        cases returned
        apply peak_op_le
        · rw [aborts]
          exact le_refl _
        · intro _ after returned
          rw [aborts] at returned
          cases returned

theorem exists_peak_args {args : List ArgObj} (fillable : ∀ arg ∈ args, arg.codec.Fillable)
    (height : ℕ) : ∃ tail : Bytes, ∀ (front : Bytes) (base : ℕ) (state : LuaState),
      state.stack.length = base + height → ∀ (top : ℤ) (finish : ℤ → Metered LuaState ℤ),
      base + argsUse args height ≤ max state.stack.length
        ((meteredArgs top (front ++ tail) ((front ++ tail).length : ℕ) finish args
          front.length).peak state) := by
  induction args generalizing height with
  | nil => exact ⟨[], fun _ _ _ start _ _ => le_max_of_le_left start.ge⟩
  | cons arg rest ih =>
      by_cases behind : arg.codec.accepts = true ∧
          height + arg.codec.stackUse <
            argsUse rest (height + (2 * arg.codec.leftOpen + 1))
      · rcases exists_samples arg.codec (fillable arg (.head _)) behind.1 with ⟨bytes, samples⟩
        rcases ih (fun other member => fillable other (.tail _ member))
          (height + (2 * arg.codec.leftOpen + 1)) with ⟨tail, reached⟩
        refine ⟨bytes ++ tail, ?_⟩
        intro front base state start top finish
        rcases samples.step front tail state with ⟨stack, above, read⟩
        have fits := leftOpen_le_stackUse behind.1
        have higher := above.length_eq
        have inner := reached (front ++ bytes) base ⟨stack, state.out, state.calls⟩
          (higher.trans (by omega)) top finish
        have advanced : ((front ++ bytes).length : ℤ) = front.length + bytes.length := by simp
        rw [List.append_assoc, advanced] at inner
        rw [argsUse, behind.1, if_pos rfl, max_eq_right behind.2.le]
        apply le_max_of_le_right
        rw [← FcallArg.erase_meteredUnpack] at read
        rw [meteredArgs]
        refine le_trans ?_ (Metered.le_peak_bind_right read)
        rw [if_neg samples.length_ne_zero]
        rcases le_max_iff.mp inner with low | later
        · have high := low.trans higher.le
          omega
        · exact later
      · rcases exists_peak arg.codec (fillable arg (.head _)) with ⟨tail, reached⟩
        refine ⟨tail, ?_⟩
        intro front base state start top finish
        have inside : front.length ≤ (front ++ tail).length := by simp
        have most : argsUse (arg :: rest) height = height + arg.codec.stackUse := by
          apply max_eq_left
          split_ifs with accepted
          · exact not_lt.mp fun more => behind ⟨accepted, more⟩
          · exact Nat.zero_le _
        rw [most, ← Nat.add_assoc, ← start]
        apply le_max_of_le_right
        refine le_trans ?_ Metered.le_peak_bind_left
        rw [length_sub_start inside, Int.toNat_natCast, List.drop_left]
        exact reached state

/-- `unpack` of a protocol needs as many slots as computed for some buffer. -/
theorem exists_peak_unpack {proto : NetProtocol}
    (fillable : ∀ arg ∈ proto.args, arg.codec.Fillable) : ∃ buf : Bytes,
      ∀ (numerals : Numerals) (script : Lua.Script) (ext : ℤ) (state : LuaState),
      state.stack.length + proto.stackUse ≤
        (proto.meteredUnpack numerals script buf (buf.length : ℕ) ext).peak state := by
  rcases exists_peak_args fillable 2 with ⟨buf, reached⟩
  refine ⟨buf, fun numerals script ext state => ?_⟩
  rw [meteredUnpack]
  rcases bound : proto.unpackRef with _ | handler
  · have none : proto.stackUse = 0 := by rw [stackUse, bound]
    rw [none]
    exact le_peak_of_height (Lua.gettop_apply state) (le_refl _)
  · apply le_peak_of_later (Lua.gettop_apply state)
    rw [stackUse_eq bound]
    by_cases callable : handler.isFunction = true
    · have inner := reached [] state.stack.length
        ⟨.number ext :: handler :: state.stack, state.out, state.calls⟩ rfl state.stack.length
        (meteredCallHandler numerals script state.stack.length (proto.args.length + 1))
      rw [if_pos callable]
      apply le_peak_of_later (Lua.push_apply _ _)
      apply le_peak_of_later (Lua.assert_apply callable _)
      exact le_peak_of_max (Lua.push_apply _ _) inner
    · rw [if_neg callable]
      exact le_peak_of_height (Lua.push_apply _ _) (le_refl _)

end Slots

end NetProtocol

namespace FcallArg

/-! ## Formats of descriptions -/

/-- Opcodes that close only what they have opened keep the table around them open. -/
theorem fills_of_opens {opcodes : List TableOpcode} {start finish depth : ℕ}
    (opens : TableOpcode.Opens opcodes start finish)
    (leaves : ∀ key valueArg, .pushValue key valueArg ∈ opcodes → valueArg.Fillable)
    (inside : start < depth) (last : TableOpcode) : Fills (opcodes ++ [last]) depth := by
  induction opcodes generalizing start depth with
  | nil => exact fills_last last depth
  | cons opcode rest ih =>
      have later (key : LuaKey) (valueArg : FcallArg) (member : .pushValue key valueArg ∈ rest) :
          valueArg.Fillable := leaves key valueArg (.tail _ member)
      cases opcode with
      | tbBegin key => exact .inr (ih opens later (Nat.succ_lt_succ inside))
      | pushValue key valueArg =>
          exact .inr ⟨leaves key valueArg (.head _),
            ih opens.2 later (inside.trans_le (Nat.le_add_right _ _))⟩
      | tbEnd =>
          have positive := opens.1
          exact .inr ⟨by omega, ih opens.2 later (by omega)⟩

end FcallArg

namespace FcallArgManager

/-- All formats keep their tables open, and close only what they have opened. -/
def AllFillable (args : List ArgObj) : Prop :=
  AllNested args ∧ ∀ arg ∈ args, arg.codec.Fillable

theorem fillable_travelTable {numerals : Numerals} {args : List ArgObj}
    (fillable : AllFillable args) {fields : List (LuaKey × LuaValue)} {hashstr : Bytes}
    {final : Travel}
    (returns : travelTable numerals args fields ⟨0, [], hashstr⟩ = (.ret (), final)) :
    (FcallArg.table final.opcodes).Fillable := by
  have leaves := leaves_travelTable fillable.2 returns
  rcases travelTable_ret returns with ⟨between, looped, closed⟩
  rcases Travel.emits_readFields fillable.1 fields _ between looped with ⟨emitted, same, opens⟩
  rcases opens 0 with ⟨finish, -, opened⟩
  have shape : final.opcodes = emitted ++ [.tbEnd] := by
    rw [closed, same]
    rfl
  show FcallArg.Fills final.opcodes 1
  rw [shape] at leaves ⊢
  apply FcallArg.fills_of_opens opened _ Nat.one_pos
  intro key valueArg member
  exact leaves key valueArg (List.mem_append_left _ member)

theorem allFillable_initArgs : AllFillable initArgs :=
  ⟨allNested_initArgs, forall_initArgs trivial trivial trivial trivial trivial⟩

theorem AllFillable.append {args : List ArgObj} {arg : ArgObj} (fillable : AllFillable args)
    (nested : arg.codec.Nested) (own : arg.codec.Fillable) : AllFillable (args ++ [arg]) :=
  ⟨List.forall_mem_append.mpr ⟨fillable.1, List.forall_mem_singleton.mpr nested⟩,
    List.forall_mem_append.mpr ⟨fillable.2, List.forall_mem_singleton.mpr own⟩⟩

/-- Whatever is added to the registry, its formats are fillable. -/
theorem AllFillable.registryStep {numerals : Numerals} {args after : List ArgObj}
    {call : RegistryCall} (fillable : AllFillable args)
    (stepped : FcallArgManager.registryStep numerals args call = some after) :
    AllFillable after := by
  cases call with
  | arglistProc desc =>
      have last := survived_eq_some stepped
      have grows := NetProtocol.growsByArrays_arglistProc numerals desc args
      rw [last] at grows
      exact ⟨grows.all (fun _ _ element => element) fillable.1,
        grows.all (fun _ _ element => element) fillable.2⟩
  | addTableArgs file =>
      have last := survived_eq_some stepped
      rw [← last]
      by_cases usable : UsableFile numerals file
      · rcases addTableArgs_usable usable args with same | ⟨_, fields, travel, walked, registered⟩
        · rw [same]
          exact fillable
        · rw [registered]
          exact fillable.append (fillable.1.travelTable walked)
            (fillable_travelTable fillable walked)
      · rcases addTableArgs_unusable usable args with ⟨arg, registered, empty⟩
        rw [registered]
        apply fillable.append
        · rw [empty]
          exact ⟨1, rfl⟩
        · rw [empty]
          trivial

theorem allFillable_of_run {numerals : Numerals} {calls : List RegistryCall} {args : List ArgObj}
    (reached : run (FcallArgManager.registryStep numerals) initArgs calls = some args) :
    AllFillable args :=
  (statesMeet_of_stepsMeet (fun fillable _ stepped => fillable.registryStep stepped)
    allFillable_initArgs (stepsMeet_of_run reached)).last reached

end FcallArgManager

namespace NetProtocol

open FcallArgManager

/-! ## Loaded protocols -/

/-- `LUA_MINSTACK`, the slots that a C function has without `lua_checkstack`. -/
def luaMinstack : ℕ := 20

/-- Decoding has no more than so many slots in use above the height at its entry. -/
def StaysWithin (proto : NetProtocol) (slots : ℕ) : Prop :=
  ∀ numerals script (buf : Bytes) ext state,
    (proto.meteredUnpack numerals script buf (buf.length : ℕ) ext).peak state ≤
      state.stack.length + slots

/--
A protocol that is loaded into any manager stays within the guaranteed slots exactly if the
slots that are computed for it are no more than those.
-/
theorem staysWithin_iff {numerals : Numerals} {calls : List RegistryCall} {setup : Setup}
    {file : DescFile} {world after : World} {proto new : NetProtocol}
    (reached : run (registryStep numerals) initArgs calls = some world.args)
    (loads : proto.load setup file world = (.ret (some new), after)) :
    new.StaysWithin luaMinstack ↔ new.stackUse ≤ luaMinstack := by
  have fillable : ∀ arg ∈ new.args, arg.codec.Fillable :=
    (load_all (fun _ _ _ _ element => element) (allFillable_of_run reached).2 loads).1
  constructor
  · intro within
    rcases exists_peak_unpack fillable with ⟨buf, high⟩
    have needs := high noNumerals (fun _ => none) 0 ⟨[], [], []⟩
    have most := within noNumerals (fun _ => none) buf 0 ⟨[], [], []⟩
    exact Nat.le_of_add_le_add_left (needs.trans most)
  · intro enough numerals script buf ext state
    have needs := peak_meteredUnpack_le fillable numerals script buf buf.length ext state
    exact needs.trans (Nat.add_le_add_left enough _)

/-- A protocol for the client to implement, with so many bytes as arguments. -/
def byteArgs (count : ℕ) : DescFile :=
  ⟨ofString "pto/c_a.pto", .returns (.table [(.string (ofString "arg_list"),
    .table ((List.range count).map fun i => (.number (i + 1 : ℕ),
      .table [(.number 1, .string (ofString "value")), (.number 2, .string (ofString "byte"))])))])⟩

def loadByteArgs (count : ℕ) : Exit (Option NetProtocol) × World :=
  load ProtoManager.clientSide ⟨1, 1, [], [], none, false⟩ (byteArgs count)
    (.init initArgs (ProtoManager.makerTable "c_a"))

theorem loadByteArgs_eq {count : ℕ} {α : Type} {view : NetProtocol → α} {seen : α}
    (loaded : (loadByteArgs count).1.returned.join.map view = some seen) :
    ∃ new after, loadByteArgs count = (.ret (some new), after) ∧ view new = seen := by
  rcases Option.map_eq_some_iff.mp loaded with ⟨new, joined, viewed⟩
  have returns := Exit.returned_eq_some.mp (Option.join_eq_some_iff.mp joined)
  exact ⟨new, (loadByteArgs count).2, Prod.ext returns rfl, viewed⟩

/-- Eighteen arguments and the function and the number before them take all slots. -/
theorem staysWithin_eighteen_bytes :
    ∃ new after, loadByteArgs 18 = (.ret (some new), after) ∧ new.StaysWithin luaMinstack := by
  have seen : (loadByteArgs 18).1.returned.join.map stackUse = some 20 := by decide +kernel
  rcases loadByteArgs_eq seen with ⟨new, after, loads, needs⟩
  have builtIn : run (registryStep noNumerals) initArgs [] = some initArgs := run_nil _
  exact ⟨new, after, loads, (staysWithin_iff builtIn loads).mpr needs.le⟩

/-- With one argument more, a message of nineteen bytes takes twenty-one slots. -/
theorem not_staysWithin_nineteen_bytes :
    ∃ new after, loadByteArgs 19 = (.ret (some new), after) ∧
      (new.meteredUnpack noNumerals (fun _ => none) (List.replicate 19 0) 19 0).peak
        ⟨[], [], []⟩ = 21 ∧
      ¬new.StaysWithin luaMinstack := by
  have seen : (loadByteArgs 19).1.returned.join.map (fun new => (new.meteredUnpack noNumerals
      (fun _ => none) (List.replicate 19 0) 19 0).peak ⟨[], [], []⟩) = some 21 := by
    decide +kernel
  rcases loadByteArgs_eq seen with ⟨new, after, loads, high⟩
  refine ⟨new, after, loads, high, ?_⟩
  intro within
  have most := within noNumerals (fun _ => none) (List.replicate 19 0) 0 ⟨[], [], []⟩
  exact absurd (high.symm.le.trans most) (by decide)

end NetProtocol

end SimpleModule
