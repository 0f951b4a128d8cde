import SimpleModule.Protocol.Separation
import SimpleModule.Protocol.Untrusted

/-!
# Argument lists

The loop of `unpack` over the arguments of a protocol is compared by layouts.  Two protocols
read the same from every buffer exactly if their argument lists have the same items on the
wire and the same shape.

This is for formats of balanced types.  `load` makes no others out of a registry that has no
others.
-/

namespace SimpleModule

open Octets Exits Decoders LuaValue

namespace ArgType

/-! ## The layout of an argument list -/

/-- The argument at position `i` stands under the key `i + 1`. -/
def argsLayout : List ArgType → (i : ℕ) → Option (List Token)
  | [], _ => some []
  | type :: rest, i =>
      Option.map₂ (· ++ ·) (type.layout (.number (i + 1 : ℤ))) (argsLayout rest (i + 1))

/-- The same items on the wire, and the same shape of the values. -/
def SameLayout (types others : List ArgType) : Prop :=
  (argsLayout types 0).map items = (argsLayout others 0).map items ∧
    (argsLayout types 0).map shape = (argsLayout others 0).map shape

def argMarks : (i : ℕ) → List LuaValue → List (Mark LuaValue)
  | _, [] => []
  | i, value :: rest => value.marks (.number (i + 1 : ℤ)) ++ argMarks (i + 1) rest

theorem argMarks_injective (i : ℕ) : Function.Injective (argMarks i) := by
  intro left
  have marked (key : LuaKey) (value : LuaValue) : value.marks key ≠ [] := by
    cases value <;> simp [marks]
  induction left generalizing i with
  | nil =>
      intro right same
      cases right with
      | nil => rfl
      | cons value right =>
          have empty := List.append_eq_nil_iff.mp same.symm
          exact absurd empty.1 (marked _ _)
  | cons value left ih =>
      intro right same
      cases right with
      | nil =>
          have empty := List.append_eq_nil_iff.mp same
          exact absurd empty.1 (marked _ _)
      | cons other right =>
          rcases marks_inj value other same with ⟨-, rfl, rest⟩
          rw [ih (i + 1) rest]

theorem mapped_decodeArgs (types : List ArgType) (i : ℕ) :
    (decodeArgs types).mapped (argMarks i) = readLayout (argsLayout types i) := by
  induction types generalizing i with
  | nil => rfl
  | cons type types ih =>
      rw [argsLayout, readLayout_append, ← mapped_decode, ← ih]
      funext buf
      rcases here : type.decode buf with _ | ⟨value, consumed⟩
      · simp [decodeArgs, Decoder.append, Decoder.mapped, here]
      · rcases behind : decodeArgs types (buf.drop consumed) with _ | ⟨values, later⟩
        · simp [decodeArgs, Decoder.append, Decoder.mapped, here, behind]
        · simp [decodeArgs, Decoder.append, Decoder.mapped, here, behind, argMarks]

theorem allSound_argsLayout (types : List ArgType) (i : ℕ) :
    ∀ tokens, argsLayout types i = some tokens → AllSound tokens := by
  induction types generalizing i with
  | nil =>
      rintro tokens ⟨⟩
      trivial
  | cons type types ih =>
      intro tokens found
      exact allSound_of_append found
        (fun tokens found => (allSound_layout type _ tokens found).1) (ih (i + 1))

/-- Argument lists are read alike exactly if they have the same layout. -/
theorem decodeArgs_eq_iff (types others : List ArgType) :
    decodeArgs types = decodeArgs others ↔ SameLayout types others := by
  rw [SameLayout, ← readLayout_eq_iff (allSound_argsLayout types 0) (allSound_argsLayout others 0),
    ← mapped_decodeArgs, ← mapped_decodeArgs]
  constructor
  · intro same
    rw [same]
  · intro agree
    funext buf
    apply Option.map_injective _ (congrFun agree buf)
    rintro ⟨values, consumed⟩ ⟨entries, later⟩ same
    rw [Prod.mk.injEq] at same
    exact Prod.ext (argMarks_injective 0 same.1) same.2

end ArgType

namespace NetProtocol

open ArgType

/-! ## What a protocol reads -/

/-- The formats of the arguments are those of balanced types. -/
structure Formats (proto : NetProtocol) (types : List ArgType) : Prop where
  formats : proto.args.map ArgObj.codec = types.map compile
  balanced : ∀ type ∈ types, type.Balanced

/-- The loop over the arguments accepts a buffer, consumes some bytes and pushes some values. -/
def Yields (proto : NetProtocol) (buf : Bytes) (consumed : ℕ) (values : List LuaValue) : Prop :=
  ∀ (top : ℤ) (state : LuaState),
    unpackArgs top buf buf.length pure proto.args 0 state =
      (.ret consumed, { state with stack := values.reverse ++ state.stack })

/-- Two protocols accept the same buffers, consume as much of them and push the same values. -/
def ReadsAlike (proto other : NetProtocol) : Prop :=
  ∀ buf consumed values, proto.Yields buf consumed values ↔ other.Yields buf consumed values

variable {proto other : NetProtocol} {types others : List ArgType}

theorem yields_iff (formats : proto.Formats types) (buf : Bytes) (consumed : ℕ)
    (values : List LuaValue) :
    proto.Yields buf consumed values ↔ decodeArgs types buf = some (values, consumed) := by
  have looped (top : ℤ) (state : LuaState) :=
    unpackArgs_eq top buf pure formats.formats formats.balanced 0 (Nat.zero_le _) state
  simp only [List.drop_zero] at looped
  rcases read : decodeArgs types buf with _ | ⟨entries, length⟩
  · simp only [read] at looped
    constructor
    · intro yields
      rcases looped 0 ⟨[], [], []⟩ with ⟨final, refused, -⟩
      have returned := (yields 0 ⟨[], [], []⟩).symm.trans refused
      rw [Prod.mk.injEq, Exit.ret.injEq, errorUnpackFormat] at returned
      omega
    · intro found
      cases found
  · simp only [read] at looped
    constructor
    · intro yields
      have returned := (yields 0 ⟨[], [], []⟩).symm.trans (looped 0 ⟨[], [], []⟩).2.2
      simp only [Program.pure_apply, Prod.mk.injEq, Exit.ret.injEq, Nat.cast_inj,
        LuaState.mk.injEq, List.append_nil, List.reverse_inj, Nat.zero_add] at returned
      rw [returned.1, returned.2.1]
    · intro found top state
      rw [Option.some.injEq, Prod.mk.injEq] at found
      rw [← found.1, ← found.2]
      have returned := (looped top state).2.2
      rw [Nat.zero_add] at returned
      exact returned

theorem readsAlike_iff (formats : proto.Formats types) (formats' : other.Formats others) :
    ReadsAlike proto other ↔ SameLayout types others := by
  rw [← decodeArgs_eq_iff]
  constructor
  · intro alike
    funext buf
    apply Option.ext
    rintro ⟨values, consumed⟩
    rw [← yields_iff formats, ← yields_iff formats']
    exact alike buf consumed values
  · intro same buf consumed values
    rw [yields_iff formats, yields_iff formats', same]

/-! ## Formats of loaded protocols -/

/-- Every registered format is that of a balanced type. -/
def Registered (args : List ArgObj) : Prop :=
  ∀ arg ∈ args, ∃ type : ArgType, type.Balanced ∧ arg.codec = type.compile

theorem registered_initArgs : Registered initArgs := by
  intro arg member
  simp only [initArgs, List.mem_cons, List.not_mem_nil, or_false] at member
  rcases member with rfl | rfl | rfl | rfl | rfl
  · exact ⟨.number, trivial, rfl⟩
  · exact ⟨.byte, trivial, rfl⟩
  · exact ⟨.word, trivial, rfl⟩
  · exact ⟨.dword, trivial, rfl⟩
  · exact ⟨.string, trivial, rfl⟩

theorem Registered.describes {numerals : Numerals} {args : List ArgObj}
    (registered : Registered args) {fields : List (LuaKey × LuaValue)}
    {shape : TableShape FcallArg} (described : Describes numerals args fields shape) :
    ∃ inner : TableShape ArgType, FieldsBalanced inner ∧ compileFields inner = shape ∧
      ∀ key ∈ inner.keys, key ∈ fields.map Prod.fst := by
  induction described with
  | nil => exact ⟨.nil, trivial, rfl, by simp [TableShape.keys]⟩
  | @value key _ _ arg _ _ _ fresh _ found tail ih =>
      rcases registered arg (List.mem_of_find?_eq_some found) with ⟨type, balanced, codec⟩
      rcases ih with ⟨inner, inside, rfl, keys⟩
      refine ⟨.value key type inner, ⟨fun member => fresh (keys key member), balanced, inside⟩,
        by rw [compileFields, codec], ?_⟩
      intro other member
      rcases List.mem_cons.mp member with rfl | later
      · simp
      · simp [keys other later]
  | @sub key _ _ _ _ _ fresh head tail ihHead ihTail =>
      rcases ihHead with ⟨nested, inside, rfl, -⟩
      rcases ihTail with ⟨inner, outside, rfl, keys⟩
      refine ⟨.sub key nested inner, ⟨fun member => fresh (keys key member), inside, outside⟩,
        rfl, ?_⟩
      intro other member
      rcases List.mem_cons.mp member with rfl | later
      · simp
      · simp [keys other later]
  | empty tail ih =>
      rcases ih with ⟨inner, balanced, compiled, keys⟩
      exact ⟨inner, balanced, compiled, fun key member => List.mem_cons_of_mem _ (keys key member)⟩

/-- The format of a described table is that of a balanced type, up to ten tables. -/
theorem Registered.travelTable {numerals : Numerals} {args : List ArgObj}
    (registered : Registered args) {fields : List (LuaKey × LuaValue)}
    {shape : TableShape FcallArg} (described : Describes numerals args fields shape)
    (small : shape.tableCount ≤ maxTableDeep) (hashstr : Bytes) :
    ∃ final, SimpleModule.travelTable numerals args fields ⟨0, [], hashstr⟩ = (.ret (), final) ∧
      ∃ type : ArgType, type.Balanced ∧ FcallArg.table final.opcodes = type.compile := by
  rcases registered.describes described with ⟨inner, balanced, rfl, -⟩
  rcases travelTable_opcodes described small hashstr with ⟨final, travelled, bracketed⟩
  exact ⟨final, travelled, .table inner, balanced, by rw [bracketed, compile]⟩

theorem args_functionStored (setup : Setup) (proto : NetProtocol) (world : World) :
    (functionStored setup proto world).args = world.args := by
  unfold functionStored storeClosure World.setGlobal
  split_ifs
  · rfl
  · split
    · rfl
    · rfl

theorem argRequest_size {numerals : Numerals} {desc : LuaValue} {text : Bytes} {size : ℤ}
    (request : argRequest numerals desc = .array text size) : 0 ≤ size := by
  by_cases isTable : desc.isTable = true
  · rcases named : (desc.index 2).toBytes numerals with _ | name
    · simp [argRequest, isTable, named] at request
    · simp only [argRequest, isTable, named, if_true] at request
      split_ifs at request
      cases request
      omega
  · simp [argRequest, isTable] at request

/-- What a turn of the loop in `arglist_proc` finds, or makes of what it finds. -/
theorem readArg_ret {numerals : Numerals} {desc : LuaValue} {args after : List ArgObj}
    {arg : ArgObj} (returns : NetProtocol.readArg numerals desc args = (.ret (some arg), after)) :
    (arg ∈ args ∧ after = args) ∨
      ∃ base ∈ args, ∃ (text : Bytes) (size : ℕ), base.typeName = cString text ∧
        arg = arrayArg text base size ∧ after = args ++ [arg] := by
  rw [readArg_eq] at returns
  cases request : argRequest numerals desc with
  | rejected =>
      rw [request] at returns
      cases returns
  | unnamed =>
      rw [request] at returns
      cases returns
  | named text =>
      rw [request, ArgRequest.answer, Prod.mk.injEq, Exit.ret.injEq] at returns
      exact .inl ⟨List.mem_of_find?_eq_some returns.1, returns.2.symm⟩
  | array text size =>
      rw [request, ArgRequest.answer] at returns
      rcases found : getArg args text with _ | base
      · rw [found] at returns
        cases returns
      · rw [found] at returns
        cases returns
        have named : base.typeName = cString text := by simpa using List.find?_some found
        refine .inr ⟨base, List.mem_of_find?_eq_some found, text, size.toNat, named, ?_, rfl⟩
        rw [Int.toNat_of_nonneg (argRequest_size request)]

section Closed

variable {good : ArgObj → Prop}
  (array : ∀ (base : ArgObj) (text : Bytes) (size : ℕ), base.typeName = cString text →
    good base → good (arrayArg text base size))

include array

/-- What holds for the registered formats and for arrays of them holds for all arguments. -/
theorem readArgs_all {numerals : Numerals} {entries : List LuaValue}
    {args after list : List ArgObj} (all : ∀ arg ∈ args, good arg)
    (returns : NetProtocol.readArgs numerals entries args = (.ret (some list), after)) :
    (∀ arg ∈ list, good arg) ∧ ∀ arg ∈ after, good arg := by
  induction entries generalizing args list after with
  | nil =>
      cases returns
      exact ⟨by simp, all⟩
  | cons desc rest ih =>
      rcases Program.bind_eq_ret_iff.mp returns with ⟨first, between, read, returns⟩
      cases first with
      | none => cases returns
      | some arg =>
          have still : good arg ∧ ∀ entry ∈ between, good entry := by
            rcases readArg_ret read with
              ⟨member, rfl⟩ | ⟨base, member, text, size, named, made, rfl⟩
            · exact ⟨all arg member, all⟩
            · have whole : good arg := made ▸ array base text size named (all base member)
              refine ⟨whole, ?_⟩
              intro entry among
              rw [List.mem_append, List.mem_singleton] at among
              rcases among with old | rfl
              · exact all entry old
              · exact whole
          rcases Program.bind_eq_ret_iff.mp returns with ⟨later, final, listed, returns⟩
          cases later with
          | none => cases returns
          | some others =>
              rcases ih still.2 listed with ⟨tail, ended⟩
              cases returns
              refine ⟨?_, ended⟩
              intro entry member
              rcases List.mem_cons.mp member with rfl | old
              · exact still.1
              · exact tail entry old

theorem load_all {setup : Setup} {file : DescFile} {new : NetProtocol} {world after : World}
    (all : ∀ arg ∈ world.args, good arg)
    (returns : proto.load setup file world = (.ret (some new), after)) :
    (∀ arg ∈ new.args, good arg) ∧ ∀ arg ∈ after.args, good arg := by
  rcases load_eq_some returns with
    ⟨_, _, desc, bound, _, args, registry, -, processed, listed, rfl, rfl⟩
  rcases funcProc_ret processed with ⟨rfl, unpackRef, rfl⟩
  rw [args_functionStored] at listed
  unfold arglistProc at listed
  split_ifs at listed
  · exact readArgs_all array all listed
  · cases listed

end Closed

theorem Registered.exists_types {args : List ArgObj} (registered : Registered args) :
    ∃ types : List ArgType, args.map ArgObj.codec = types.map compile ∧
      ∀ type ∈ types, type.Balanced := by
  induction args with
  | nil => exact ⟨[], rfl, by simp⟩
  | cons arg args ih =>
      rcases registered arg (by simp) with ⟨type, balanced, codec⟩
      rcases ih fun other member => registered other (by simp [member]) with ⟨types, formats, all⟩
      refine ⟨type :: types, by simp [codec, formats], ?_⟩
      intro entry member
      rcases List.mem_cons.mp member with rfl | old
      · exact balanced
      · exact all entry old

/-- What `load` makes has formats for balanced types, and so have the arrays it registers. -/
theorem load_formats {setup : Setup} {file : DescFile} {new : NetProtocol} {world after : World}
    (registered : Registered world.args)
    (returns : proto.load setup file world = (.ret (some new), after)) :
    (∃ types, new.Formats types) ∧ Registered after.args := by
  have array (base : ArgObj) (text : Bytes) (size : ℕ) (_ : base.typeName = cString text)
      (element : ∃ type : ArgType, type.Balanced ∧ base.codec = type.compile) :
      ∃ type : ArgType, type.Balanced ∧ (arrayArg text base size).codec = type.compile := by
    rcases element with ⟨type, balanced, codec⟩
    exact ⟨.array type size, balanced, by rw [arrayArg, codec, compile]⟩
  rcases load_all array registered returns with ⟨arguments, still⟩
  rcases Registered.exists_types arguments with ⟨types, formats, all⟩
  exact ⟨⟨types, formats, all⟩, still⟩

end NetProtocol

end SimpleModule
