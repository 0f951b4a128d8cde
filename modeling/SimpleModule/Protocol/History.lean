import SimpleModule.Protocol.CheckId
import SimpleModule.Protocol.TableTypes

/-!
# What a description means after other loads

The types of arguments are looked up by name in a registry that every load may extend: the
format of an array is registered under the name `array`.  A description that uses this name
itself is resolved through whatever array came first in the process, and refused if there
was none.

Names other than `array` are never touched by loads.  Two histories that have registered the
same table types agree on them.  A description whose function is bound means the same after
both exactly if it comes to the name `array` only where this stands for the same format, or
where both registries refuse what is left of the argument list in the same way.
-/

namespace SimpleModule

open Octets Exits Runs

namespace NetProtocol

/-! ## Formats by name -/

/-- The format that a registry has for a name. -/
def formatOf (args : List ArgObj) (text : Bytes) : Option FcallArg :=
  (getArg args text).map ArgObj.codec

/-- Two registries have the same formats for these names. -/
def SameFormats (names : Bytes → Prop) (left right : List ArgObj) : Prop :=
  ∀ text, names (cString text) → formatOf left text = formatOf right text

/-- The name under which all arrays are registered. -/
def arrayName : Bytes := ofString "array"

theorem formatOf_eq_of_cString {text other : Bytes} (same : cString text = cString other)
    (args : List ArgObj) : formatOf args text = formatOf args other := by
  rw [formatOf, formatOf, getArg, getArg, same]

theorem formatOf_append (args : List ArgObj) (arg : ArgObj) (text : Bytes) :
    formatOf (args ++ [arg]) text =
      (formatOf args text).or (if arg.typeName = cString text then some arg.codec else none) := by
  rw [formatOf, formatOf, getArg, getArg, List.find?_append]
  by_cases named : arg.typeName = cString text
  · simp [named]
  · simp [named]

/-- Arrays of the same format may be added on both sides. -/
theorem SameFormats.append {names : Bytes → Prop} {left right : List ArgObj}
    (agree : SameFormats names left right) {leftBase rightBase : ArgObj}
    (same : leftBase.codec = rightBase.codec) (text : Bytes) (size : ℤ) :
    SameFormats names (left ++ [arrayArg text leftBase size])
      (right ++ [arrayArg text rightBase size]) := by
  intro other named
  rw [formatOf_append, formatOf_append, agree other named, arrayArg, arrayArg, same]

/-! ## Argument lists -/

/-- The type name in an entry. -/
def ArgRequest.text : ArgRequest → Option Bytes
  | .rejected => none
  | .unnamed => none
  | .named text => some text
  | .array text _ => some text

/-- The entry uses the name of arrays. -/
def ArgRequest.NamesArray (request : ArgRequest) : Prop :=
  ∃ text ∈ request.text, cString text = arrayName

/-- The entry is accepted. -/
def ArgRequest.Accepted (request : ArgRequest) (args : List ArgObj) : Prop :=
  ∃ arg, (request.answer args).1 = .ret (some arg)

/-- The outcome of an argument list as far as formats go. -/
def formatsOf (ended : Exit (Option (List ArgObj))) : Exit (Option (List FcallArg)) :=
  ended.map (Option.map (List.map ArgObj.codec))

/-- Two registries answer an entry in the same way. -/
inductive AnswerAlike (names : Bytes → Prop) (left right : Exit (Option ArgObj) × List ArgObj) :
    Prop
  | accepted {leftArg rightArg : ArgObj} {leftAfter rightAfter : List ArgObj}
      (onLeft : left = (.ret (some leftArg), leftAfter))
      (onRight : right = (.ret (some rightArg), rightAfter))
      (same : leftArg.codec = rightArg.codec) (agree : SameFormats names leftAfter rightAfter)
  | refused (onLeft : ∀ arg, left.1 ≠ .ret (some arg)) (same : left.1 = right.1)

section Lists

variable {numerals : Numerals} {names : Bytes → Prop} {left right args after : List ArgObj}
  {desc : LuaValue}

theorem answerAlike (request : ArgRequest) (agree : SameFormats names left right)
    (known : ∀ text ∈ request.text, names (cString text)) :
    AnswerAlike names (request.answer left) (request.answer right) := by
  cases request with
  | rejected => exact .refused (by simp [ArgRequest.answer]) rfl
  | unnamed => exact .refused (by simp [ArgRequest.answer]) rfl
  | named text =>
      have same := agree text (known text rfl)
      rw [formatOf, formatOf] at same
      rcases foundLeft : getArg left text with _ | leftArg
      · rw [foundLeft] at same
        have foundRight : getArg right text = none := by simpa using same.symm
        apply AnswerAlike.refused
        · simp [ArgRequest.answer, foundLeft]
        · simp [ArgRequest.answer, foundLeft, foundRight]
      · rcases foundRight : getArg right text with _ | rightArg
        · simp [foundLeft, foundRight] at same
        · rw [foundLeft, foundRight] at same
          apply AnswerAlike.accepted
          · rw [ArgRequest.answer, foundLeft]
          · rw [ArgRequest.answer, foundRight]
          · exact Option.some.inj same
          · exact agree
  | array text size =>
      have same := agree text (known text rfl)
      rw [formatOf, formatOf] at same
      rcases foundLeft : getArg left text with _ | leftBase
      · rw [foundLeft] at same
        have foundRight : getArg right text = none := by simpa using same.symm
        apply AnswerAlike.refused
        · simp [ArgRequest.answer, foundLeft]
        · simp [ArgRequest.answer, foundLeft, foundRight]
      · rcases foundRight : getArg right text with _ | rightBase
        · simp [foundLeft, foundRight] at same
        · rw [foundLeft, foundRight] at same
          have bases : leftBase.codec = rightBase.codec := Option.some.inj same
          apply AnswerAlike.accepted
          · rw [ArgRequest.answer, foundLeft]
          · rw [ArgRequest.answer, foundRight]
          · rw [arrayArg, arrayArg, bases]
          · exact agree.append bases text size

theorem formatsOf_accepted {arg : ArgObj} (rest : List LuaValue)
    (accepted : (argRequest numerals desc).answer args = (.ret (some arg), after)) :
    formatsOf (readArgs numerals (desc :: rest) args).1 =
      (formatsOf (readArgs numerals rest after).1).map (Option.map (arg.codec :: ·)) := by
  have read : readArg numerals desc args = (.ret (some arg), after) :=
    (readArg_eq numerals desc args).trans accepted
  rw [readArgs, Program.bind_of_ret read]
  simp only [Program.bind_apply]
  rcases readArgs numerals rest after with ⟨(_ | list) | _ | _ | _, last⟩
  · rfl
  · rfl
  · rfl
  · rfl
  · rfl

theorem formatsOf_refused (rest : List LuaValue)
    (refused : ∀ arg, ((argRequest numerals desc).answer args).1 ≠ .ret (some arg)) :
    formatsOf (readArgs numerals (desc :: rest) args).1 =
      ((argRequest numerals desc).answer args).1.map fun _ => none := by
  rw [← readArg_eq] at refused ⊢
  rw [readArgs, Program.bind_apply]
  rcases answered : readArg numerals desc args with ⟨(_ | arg) | _ | _ | _, last⟩
  · rfl
  · exact absurd (congrArg Prod.fst answered) (refused arg)
  · rfl
  · rfl
  · rfl

/-- Registries that agree on all names give the same formats. -/
theorem formatsOf_readArgs_of_agree (entries : List LuaValue)
    (agree : SameFormats (fun _ => True) left right) :
    formatsOf (readArgs numerals entries left).1 =
      formatsOf (readArgs numerals entries right).1 := by
  induction entries generalizing left right with
  | nil => rfl
  | cons desc rest ih =>
      rcases answerAlike (argRequest numerals desc) agree (fun _ _ => trivial) with
        ⟨onLeft, onRight, same, later⟩ | ⟨onLeft, same⟩
      · rw [formatsOf_accepted rest onLeft, formatsOf_accepted rest onRight, same, ih later]
      · rw [formatsOf_refused rest onLeft, formatsOf_refused rest (same ▸ onLeft), same]

/-- By the names they know, both registries refuse the list in the same way. -/
def RefusedAlike (numerals : Numerals) (entries : List LuaValue) (left right : List ArgObj) :
    Prop :=
  ∃ refusal, refusalOf numerals (isKnown left) entries = some refusal ∧
    refusalOf numerals (isKnown right) entries = some refusal

/--
The list does not come to an entry that uses the name of arrays, or at the first such entry
the name stands for the same format in both registries or both refuse the rest alike.
-/
def ArraysAlike (numerals : Numerals) : List LuaValue → (left right : List ArgObj) → Prop
  | [], _, _ => True
  | desc :: rest, left, right =>
      ((argRequest numerals desc).NamesArray →
        formatOf left arrayName = formatOf right arrayName ∨
          RefusedAlike numerals (desc :: rest) left right) ∧
      (¬(argRequest numerals desc).NamesArray → (argRequest numerals desc).Accepted left →
        ArraysAlike numerals rest ((argRequest numerals desc).answer left).2
          ((argRequest numerals desc).answer right).2)

/-- The names that are known decide whether there are formats, and what there is instead. -/
theorem formatsOf_readArgs_cases (numerals : Numerals) (entries : List LuaValue)
    (args : List ArgObj) :
    (∃ list, formatsOf (readArgs numerals entries args).1 = .ret (some list)) ∨
      ∃ refusal, refusalOf numerals (isKnown args) entries = some refusal ∧
        formatsOf (readArgs numerals entries args).1 = refusal.exit := by
  rcases readArgs_cases numerals entries args with
    ⟨-, list, registry, listed⟩ | ⟨refusal, refused, more, listed, -⟩
  · left
    rw [listed]
    exact ⟨_, rfl⟩
  · right
    rw [listed]
    exact ⟨refusal, refused, refusal.map_exit _⟩

theorem formatsOf_readArgs_of_refusal {entries : List LuaValue} {refusal : ArgsRefusal}
    (refused : refusalOf numerals (isKnown args) entries = some refusal) :
    formatsOf (readArgs numerals entries args).1 = refusal.exit := by
  rcases readArgs_cases numerals entries args with
    ⟨all, -⟩ | ⟨refusal', refused', more, listed, -⟩
  · cases all.symm.trans refused
  · cases refused'.symm.trans refused
    rw [listed]
    exact refusal.map_exit _

theorem agree_of_arrayName (agree : SameFormats (· ≠ arrayName) left right)
    (same : formatOf left arrayName = formatOf right arrayName) :
    SameFormats (fun _ => True) left right := by
  intro text _
  by_cases named : cString text = arrayName
  · have whole : cString text = cString arrayName := named
    rw [formatOf_eq_of_cString whole, formatOf_eq_of_cString whole, same]
  · exact agree text named

theorem formatsOf_readArgs_of_alike {entries : List LuaValue}
    (agree : SameFormats (· ≠ arrayName) left right)
    (alike : ArraysAlike numerals entries left right) :
    formatsOf (readArgs numerals entries left).1 =
      formatsOf (readArgs numerals entries right).1 := by
  induction entries generalizing left right with
  | nil => rfl
  | cons desc rest ih =>
      by_cases array : (argRequest numerals desc).NamesArray
      · rcases alike.1 array with same | ⟨refusal, onLeft, onRight⟩
        · -- from here on the registries agree on everything
          exact formatsOf_readArgs_of_agree _ (agree_of_arrayName agree same)
        · rw [formatsOf_readArgs_of_refusal onLeft, formatsOf_readArgs_of_refusal onRight]
      · have others : ∀ text ∈ (argRequest numerals desc).text, cString text ≠ arrayName :=
          fun text member named => array ⟨text, member, named⟩
        rcases answerAlike (argRequest numerals desc) agree others with
          ⟨onLeft, onRight, same, later⟩ | ⟨onLeft, same⟩
        · have rest' := alike.2 array ⟨_, congrArg Prod.fst onLeft⟩
          rw [onLeft, onRight] at rest'
          rw [formatsOf_accepted rest onLeft, formatsOf_accepted rest onRight, same, ih later rest']
        · rw [formatsOf_refused rest onLeft, formatsOf_refused rest (same ▸ onLeft), same]

/-- An accepted entry that uses the name of arrays shows what the name stands for. -/
theorem formatOf_arrayName_of_accepted {request : ArgRequest} {leftArg rightArg : ArgObj}
    (array : request.NamesArray) (onLeft : (request.answer left).1 = .ret (some leftArg))
    (onRight : (request.answer right).1 = .ret (some rightArg))
    (same : leftArg.codec = rightArg.codec) :
    formatOf left arrayName = formatOf right arrayName := by
  rcases array with ⟨text, member, named⟩
  have whole : cString text = cString arrayName := named
  rw [← formatOf_eq_of_cString whole, ← formatOf_eq_of_cString whole, formatOf, formatOf]
  cases request with
  | rejected => cases member
  | unnamed => cases member
  | named text =>
      cases member
      simp only [ArgRequest.answer, Exit.ret.injEq] at onLeft onRight
      rw [onLeft, onRight, Option.map_some, Option.map_some, same]
  | array text size =>
      cases member
      rw [ArgRequest.answer] at onLeft onRight
      rcases foundLeft : getArg left text with _ | leftBase
      · simp [foundLeft] at onLeft
      · rcases foundRight : getArg right text with _ | rightBase
        · simp [foundRight] at onRight
        · simp only [foundLeft, foundRight, Exit.ret.injEq, Option.some.injEq] at onLeft onRight
          subst onLeft onRight
          have bases : leftBase.codec = rightBase.codec := by simpa [arrayArg] using same
          simp [bases]

/-- The first entry of a list that is accepted is accepted, and so are the others. -/
theorem accepted_of_formatsOf {rest : List LuaValue} {list : List FcallArg}
    (gives : formatsOf (readArgs numerals (desc :: rest) args).1 = .ret (some list)) :
    ∃ arg after others, (argRequest numerals desc).answer args = (.ret (some arg), after) ∧
      formatsOf (readArgs numerals rest after).1 = .ret (some others) ∧
      list = arg.codec :: others := by
  by_cases accepted : (argRequest numerals desc).Accepted args
  · rcases accepted with ⟨arg, accepted⟩
    have answered : (argRequest numerals desc).answer args =
        (.ret (some arg), ((argRequest numerals desc).answer args).2) := Prod.ext accepted rfl
    rw [formatsOf_accepted rest answered] at gives
    rcases Exit.map_eq_ret.mp gives with ⟨outcome, later, listed⟩
    rcases Option.map_eq_some_iff.mp listed with ⟨others, rfl, rfl⟩
    exact ⟨arg, _, others, answered, later, rfl⟩
  · rw [formatsOf_refused rest (not_exists.mp accepted)] at gives
    rcases Exit.map_eq_ret.mp gives with ⟨_, -, absent⟩
    cases absent

/-- Where the name of arrays is used first, formats or refusals show what it stands for. -/
theorem arrayName_alike {desc : LuaValue} {rest : List LuaValue}
    (array : (argRequest numerals desc).NamesArray)
    (same : formatsOf (readArgs numerals (desc :: rest) left).1 =
      formatsOf (readArgs numerals (desc :: rest) right).1) :
    formatOf left arrayName = formatOf right arrayName ∨
      RefusedAlike numerals (desc :: rest) left right := by
  rcases formatsOf_readArgs_cases numerals (desc :: rest) left with
    ⟨list, onLeft⟩ | ⟨refusal, refused, onLeft⟩
  · left
    have onRight := same.symm.trans onLeft
    rcases accepted_of_formatsOf onLeft with ⟨leftArg, _, _, leftFirst, -, rfl⟩
    rcases accepted_of_formatsOf onRight with ⟨rightArg, _, _, rightFirst, -, first⟩
    rw [List.cons.injEq] at first
    exact formatOf_arrayName_of_accepted array (congrArg Prod.fst leftFirst)
      (congrArg Prod.fst rightFirst) first.1
  · right
    have onRight := same.symm.trans onLeft
    rcases formatsOf_readArgs_cases numerals (desc :: rest) right with
      ⟨list, loads⟩ | ⟨refusal', refused', ended⟩
    · exact absurd (onRight.symm.trans loads) (refusal.exit_ne_some list)
    · obtain rfl : refusal = refusal' := ArgsRefusal.exit_injective (onRight.symm.trans ended)
      exact ⟨refusal, refused, refused'⟩

theorem alike_of_formatsOf_readArgs {entries : List LuaValue}
    (agree : SameFormats (· ≠ arrayName) left right)
    (same : formatsOf (readArgs numerals entries left).1 =
      formatsOf (readArgs numerals entries right).1) :
    ArraysAlike numerals entries left right := by
  induction entries generalizing left right with
  | nil => trivial
  | cons desc rest ih =>
      constructor
      · intro array
        exact arrayName_alike array same
      · rintro array ⟨leftArg, accepted⟩
        have others : ∀ text ∈ (argRequest numerals desc).text, cString text ≠ arrayName :=
          fun text member named => array ⟨text, member, named⟩
        rcases answerAlike (argRequest numerals desc) agree others with
          ⟨onLeft, onRight, first, later⟩ | ⟨onLeft, -⟩
        · rw [formatsOf_accepted rest onLeft, formatsOf_accepted rest onRight, first] at same
          have tails := Exit.map_injective (Option.map_injective (List.cons_injective)) same
          rw [onLeft, onRight]
          exact ih later tails
        · exact absurd accepted (onLeft leftArg)

end Lists

/-! ## What a load depends on -/

/-- The outcome of the load of a new object, and the formats of its arguments. -/
def meaning (setup : Setup) (id : ℕ) (file : DescFile) (world : World) :
    Exit (Option (List FcallArg)) :=
  ((create id >>= fun proto => proto.load setup file) world).1.map
    (Option.map fun proto => proto.args.map ArgObj.codec)

/-- The entries of the argument list of a file. -/
def entriesOf (setup : Setup) (file : DescFile) : List LuaValue :=
  ((described setup file).bind fun read => argEntries read.2.2).getD []

/-- What becomes of the function of a protocol. -/
inductive Binding
  | bound
  | missing
  | fails
  deriving Repr, DecidableEq

/-- The calling side needs no function, the implementing side one of the script. -/
def binding (setup : Setup) (world : World) (name : Bytes) (isMaker : Bool) : Binding :=
  if isMaker then
    if failsToConstruct setup world name then .fails
    else if available setup world name then .bound
    else .missing
  else .bound

/--
The functions are bound and the arrays alike, or both loads are refused in the same way: for
want of a function, in the constructor, or on one side for its arguments.
-/
def ReadAlike (setup : Setup) (file : DescFile) (left right : World) : Prop :=
  match described setup file with
  | none => True
  | some (name, isMaker, desc) =>
      match binding setup left name isMaker, binding setup right name isMaker with
      | .bound, .bound =>
          ArraysAlike setup.numerals ((argEntries desc).getD []) left.args right.args
      | .bound, .missing => argsRefusal setup.numerals left.args desc = some .rejects
      | .missing, .bound => argsRefusal setup.numerals right.args desc = some .rejects
      | .missing, .missing => True
      | .fails, .fails => True
      | .bound, .fails => False
      | .missing, .fails => False
      | .fails, .bound => False
      | .fails, .missing => False

section Meaning

variable {setup : Setup} {file : DescFile} {world : World}

theorem formatsOf_arglistProc_eq_iff {left right : List ArgObj}
    (agree : SameFormats (· ≠ arrayName) left right) (desc : LuaValue) :
    formatsOf (arglistProc setup.numerals desc left).1 =
        formatsOf (arglistProc setup.numerals desc right).1 ↔
      ArraysAlike setup.numerals ((argEntries desc).getD []) left right := by
  rw [arglistProc_eq]
  rcases argEntries desc with _ | entries
  · exact ⟨fun _ => trivial, fun _ => rfl⟩
  · exact ⟨alike_of_formatsOf_readArgs agree, formatsOf_readArgs_of_alike agree⟩

theorem formatsOf_arglistProc_eq_none {args : List ArgObj} {desc : LuaValue} :
    formatsOf (arglistProc setup.numerals desc args).1 = .ret none ↔
      argsRefusal setup.numerals args desc = some .rejects := by
  rcases arglistProc_cases setup.numerals desc args with
    ⟨all, list, registry, listed⟩ | ⟨refusal, refused, more, listed, -⟩
  · rw [listed, all]
    simp [formatsOf, Exit.map]
  · rw [listed, refused]
    cases refusal with
    | rejects => simp [formatsOf, Exit.map, ArgsRefusal.exit]
    | raises => simp [formatsOf, Exit.map, ArgsRefusal.exit]
    | faults => simp [formatsOf, Exit.map, ArgsRefusal.exit]

theorem formatsOf_arglistProc_ne_abort (numerals : Numerals) (desc : LuaValue)
    (args : List ArgObj) : formatsOf (arglistProc numerals desc args).1 ≠ .abort := by
  rcases arglistProc_cases numerals desc args with
    ⟨-, list, registry, listed⟩ | ⟨refusal, -, more, listed, -⟩
  · rw [listed]
    nofun
  · rw [listed]
    cases refusal with
    | rejects => nofun
    | raises => nofun
    | faults => nofun

/-- Once the function has been bound, the load is that of the argument list. -/
theorem meaning_of_funcProc {name : Bytes} {isMaker : Bool} {desc : LuaValue} {id : ℕ}
    {bound : NetProtocol} {stored : World}
    (read : described setup file = some (name, isMaker, desc))
    (processed : funcProc setup ⟨world.nextSelf, id, [], name, none, isMaker⟩
      { world with nextSelf := world.nextSelf + 1 } = (.ret (some bound), stored))
    (kept : stored.args = world.args) :
    meaning setup id file world = formatsOf (arglistProc setup.numerals desc world.args).1 := by
  simp only [meaning, create, Program.bind_apply, Program.get_apply, Program.modify_apply,
    Program.pure_apply, load_eq, read, procTable, withRole, processed, Program.focus, kept]
  rcases arglistProc setup.numerals desc world.args with ⟨(_ | list) | _ | _ | _, registry⟩
  · rfl
  · rfl
  · rfl
  · rfl
  · rfl

theorem meaning_eq (setup : Setup) (id : ℕ) (file : DescFile) (world : World) :
    meaning setup id file world =
      match described setup file with
      | none => .ret none
      | some (name, isMaker, desc) =>
          match binding setup world name isMaker with
          | .bound => formatsOf (arglistProc setup.numerals desc world.args).1
          | .missing => .ret none
          | .fails => .abort := by
  rcases read : described setup file with _ | ⟨name, isMaker, desc⟩
  · simp [meaning, create, Program.bind_apply, load_eq, read, Exit.map]
  · cases isMaker with
    | false =>
        exact meaning_of_funcProc read rfl (args_storeClosure setup name world.nextSelf _)
    | true =>
        rcases bindFunc_cases setup { world with nextSelf := world.nextSelf + 1 }
          ⟨world.nextSelf, id, [], name, none, true⟩ rfl with
          ⟨fails, aborts⟩ | ⟨constructs, ⟨found, handler, binds⟩ | ⟨missing, nothing⟩⟩
        · have failing : binding setup world name true = .fails := if_pos fails
          simp [meaning, create, Program.bind_apply, load_eq, read, procTable, withRole, funcProc,
            aborts, failing, Exit.map]
        · have bound : binding setup world name true = .bound :=
            (if_neg (ne_true_of_eq_false constructs)).trans (if_pos found)
          rw [meaning_of_funcProc read binds rfl]
          simp only [bound]
        · have absent : binding setup world name true = .missing :=
            (if_neg (ne_true_of_eq_false constructs)).trans (if_neg (ne_true_of_eq_false missing))
          simp [meaning, create, Program.bind_apply, load_eq, read, procTable, withRole, funcProc,
            nothing, absent, Exit.map]

end Meaning

end NetProtocol

namespace FcallArgManager

open NetProtocol ProtoManager

/-! ## Histories -/

def isArray : FcallArg → Bool
  | .array _ _ => true
  | _ => false

def isTable : FcallArg → Bool
  | .table _ => true
  | _ => false

/-- A call that extends the registry, by a table type or by a protocol. -/
inductive HistoryCall
  | addArgType (file : TableFile)
  | load (call : Call)

/-- The state after a call that returns or raises an error. -/
def historyStep (setup : Setup) (world : World) : HistoryCall → Option World
  | .addArgType file =>
      (survived (addTableArgs setup.numerals file world.args)).map fun args =>
        { world with args := args }
  | .load call => attempt setup world call

/-- The names and formats of the table types of a registry. -/
def tableTypes (args : List ArgObj) : List (Bytes × FcallArg) :=
  (args.filter (isTable ·.codec)).map fun arg => (arg.typeName, arg.codec)

/-- Nothing but the built-in types, table types and arrays is registered. -/
structure Ordered (args : List ArgObj) : Prop where
  plain : args.filter (!isArray ·.codec) = initArgs ++ args.filter (isTable ·.codec)
  named : ∀ arg ∈ args, isArray arg.codec = true → arg.typeName = arrayName

section Histories

variable {setup : Setup} {world after : World} {args : List ArgObj}

theorem ordered_initArgs : Ordered initArgs := by
  constructor
  · rfl
  · intro arg member array
    simp only [initArgs, List.mem_cons, List.not_mem_nil, or_false] at member
    rcases member with rfl | rfl | rfl | rfl | rfl
    · cases array
    · cases array
    · cases array
    · cases array
    · cases array

theorem Ordered.append_array (ordered : Ordered args) (text : Bytes) (base : ArgObj) (size : ℤ) :
    Ordered (args ++ [arrayArg text base size]) := by
  constructor
  · rw [List.filter_append, List.filter_append, ordered.plain]
    simp [arrayArg, isArray, isTable]
  · intro arg member array
    rw [List.mem_append, List.mem_singleton] at member
    rcases member with old | rfl
    · exact ordered.named arg old array
    · rfl

theorem Ordered.append_table (ordered : Ordered args) {arg : ArgObj}
    (table : isTable arg.codec = true) : Ordered (args ++ [arg]) := by
  rcases arg with ⟨typeName, hashstr, codec⟩
  cases codec with
  | table opcodes =>
      constructor
      · rw [List.filter_append, List.filter_append, ordered.plain]
        simp [isArray, isTable]
      · intro arg member array
        rw [List.mem_append, List.mem_singleton] at member
        rcases member with old | rfl
        · exact ordered.named arg old array
        · cases array
  | number => cases table
  | byte => cases table
  | word => cases table
  | dword => cases table
  | string => cases table
  | array basePacker size => cases table

theorem Ordered.grow {more : List ArgObj} (ordered : Ordered args)
    (grows : GrowsByArrays args more) : Ordered more := by
  induction grows with
  | refl args => exact ordered
  | array text size member later ih => exact ih (ordered.append_array text _ size)

/-- What a name stands for is not changed by later arrays. -/
theorem formatOf_of_grows {more : List ArgObj} {text : Bytes} {codec : FcallArg}
    (grows : GrowsByArrays args more) (known : formatOf args text = some codec) :
    formatOf more text = some codec := by
  induction grows with
  | refl args => exact known
  | array text size member later ih =>
      apply ih
      rw [formatOf_append, known, Option.some_or]

theorem isTable_readSample {numerals : Numerals} {typeName : Bytes} {sample : LuaValue}
    {arg : ArgObj} (read : readSample numerals args typeName sample = .ret arg) :
    isTable arg.codec = true := by
  unfold readSample at read
  split at read
  · split at read
    · cases read
      rfl
    · cases read
    · cases read
    · cases read
  · cases read
    rfl

theorem isTable_readFormat {numerals : Numerals} {file : TableFile} {arg : ArgObj}
    (read : readFormat numerals args file = .ret arg) : isTable arg.codec = true := by
  cases file with
  | unreadable => cases read; rfl
  | loadError => cases read; rfl
  | runError => cases read; rfl
  | returns typeName sample =>
      rw [readFormat] at read
      rcases named : typeName.toBytes numerals with _ | text
      · rw [named] at read
        cases read
      · rw [named] at read
        exact isTable_readSample read

theorem Ordered.historyStep {call : HistoryCall} (ordered : Ordered world.args)
    (stepped : historyStep setup world call = some after) : Ordered after.args := by
  cases call with
  | addArgType file =>
      rcases Option.map_eq_some_iff.mp stepped with ⟨registry, survives, rfl⟩
      rw [addTableArgs_eq] at survives
      rcases read : readFormat setup.numerals world.args file with arg | _ | _ | _
      · rw [read] at survives
        rw [← Option.some.inj survives]
        exact ordered.append_table (isTable_readFormat read)
      · rw [read] at survives
        rw [← Option.some.inj survives]
        exact ordered
      · rw [read] at survives
        cases survives
      · rw [read] at survives
        cases survives
  | load call =>
      rcases attempt_eq_some stepped with ⟨ended, returned, -⟩
      have grows := argsGrow_program setup call world
      rw [returned] at grows
      exact ordered.grow grows

theorem ordered_of_reached {globals : List (LuaKey × LuaValue)} {history : List HistoryCall}
    (reached : run (historyStep setup) (.init initArgs globals) history = some world) :
    Ordered world.args := by
  have states : StatesMeet (historyStep setup) (Ordered ·.args) (.init initArgs globals) history :=
    statesMeet_of_stepsMeet (fun ordered _ stepped => ordered.historyStep stepped)
      ordered_initArgs (stepsMeet_of_run reached)
  exact states.last reached

/-- Arrays may be left out when another name is looked up. -/
theorem Ordered.formatOf_eq (ordered : Ordered args) {text : Bytes}
    (other : cString text ≠ arrayName) :
    formatOf args text =
      ((initArgs.map (fun arg => (arg.typeName, arg.codec)) ++ tableTypes args).find?
        fun entry => entry.1 = cString text).map Prod.snd := by
  have plain : getArg args text = getArg (args.filter (!isArray ·.codec)) text := by
    rw [getArg, getArg, List.find?_filter]
    apply List.find?_congr
    intro arg member
    by_cases named : arg.typeName = cString text
    · have noArray : isArray arg.codec = false := by
        rw [← Bool.not_eq_true]
        intro array
        exact other (named ▸ ordered.named arg member array)
      simp [named, noArray]
    · simp [named]
  rw [formatOf, plain, ordered.plain, tableTypes, ← List.map_append, List.find?_map,
    Option.map_map, getArg]
  rfl

/-- Registries with the same table types agree on all names but that of arrays. -/
theorem Ordered.agree {left right : List ArgObj} (leftOrdered : Ordered left)
    (rightOrdered : Ordered right) (same : tableTypes left = tableTypes right) :
    SameFormats (· ≠ arrayName) left right := by
  intro text other
  rw [leftOrdered.formatOf_eq other, rightOrdered.formatOf_eq other, same]

theorem meaning_eq_iff_of_agree {left right : World} {file : DescFile} (leftId rightId : ℕ)
    (agree : SameFormats (· ≠ arrayName) left.args right.args) :
    meaning setup leftId file left = meaning setup rightId file right ↔
      ReadAlike setup file left right := by
  rw [meaning_eq, meaning_eq, ReadAlike]
  rcases described setup file with _ | ⟨name, isMaker, desc⟩
  · simp only
  · dsimp only
    have neverLeft := formatsOf_arglistProc_ne_abort setup.numerals desc left.args
    have neverRight := formatsOf_arglistProc_ne_abort setup.numerals desc right.args
    rcases binding setup left name isMaker with _ | _ | _
    · rcases binding setup right name isMaker with _ | _ | _
      · exact formatsOf_arglistProc_eq_iff agree desc
      · exact formatsOf_arglistProc_eq_none
      · exact ⟨neverLeft, False.elim⟩
    · rcases binding setup right name isMaker with _ | _ | _
      · exact eq_comm.trans formatsOf_arglistProc_eq_none
      · simp only
      · exact ⟨nofun, False.elim⟩
    · rcases binding setup right name isMaker with _ | _ | _
      · exact ⟨fun same => neverRight same.symm, False.elim⟩
      · exact ⟨nofun, False.elim⟩
      · simp only

/--
After two histories that have registered the same table types, a file means the same exactly
if it is read alike: by the function that this side has for it, and by what the names in its
argument list stand for.
-/
theorem meaning_eq_iff {globals : List (LuaKey × LuaValue)} {before before' : List HistoryCall}
    {left right : World}
    (reached : run (historyStep setup) (.init initArgs globals) before = some left)
    (reached' : run (historyStep setup) (.init initArgs globals) before' = some right)
    (same : tableTypes left.args = tableTypes right.args) (file : DescFile) (leftId rightId : ℕ) :
    meaning setup leftId file left = meaning setup rightId file right ↔
      ReadAlike setup file left right :=
  meaning_eq_iff_of_agree leftId rightId
    ((ordered_of_reached reached).agree (ordered_of_reached reached') same)

end Histories

/-- The name of arrays stands for the first one, whatever other arrays follow. -/
theorem meaning_array_after_others :
    ∃ left right, run (historyStep clientSide) (.init initArgs []) [.load (.add (byteArray 2))] =
        some left ∧
      run (historyStep clientSide) (.init initArgs [])
        [.load (.add (byteArray 2)), .load (.add (byteArray 3))] = some right ∧
      meaning clientSide 2 (oneArg "pto/s_b.pto" "array") left =
        meaning clientSide 3 (oneArg "pto/s_b.pto" "array") right := by
  have first : (run (historyStep clientSide) (.init initArgs [])
      [.load (.add (byteArray 2))]).map (fun world =>
        ((tableTypes world.args).length, (formatOf world.args arrayName).isSome)) =
          some (0, true) := by
    decide +kernel
  have second : (run (historyStep clientSide) (.init initArgs [])
      [.load (.add (byteArray 2)), .load (.add (byteArray 3))]).map
        (fun world => (tableTypes world.args).length) = some 0 := by
    decide +kernel
  have names : (described clientSide (oneArg "pto/s_b.pto" "array")).map
      (fun read => (read.2.1, ((argEntries read.2.2).getD []).map
        fun desc => (argRequest noNumerals desc).text)) = some (false, [some arrayName]) := by
    decide +kernel
  rcases Option.map_eq_some_iff.mp first with ⟨left, reached, onLeft⟩
  rcases Option.map_eq_some_iff.mp second with ⟨right, reached', noTables⟩
  rcases Option.map_eq_some_iff.mp names with ⟨⟨name, isMaker, desc⟩, read, facts⟩
  rw [Prod.mk.injEq] at onLeft facts
  rcases facts with ⟨rfl, listed⟩
  have same : tableTypes left.args = tableTypes right.args :=
    (List.length_eq_zero_iff.mp onLeft.1).trans (List.length_eq_zero_iff.mp noTables).symm
  refine ⟨left, right, reached, reached', ?_⟩
  apply (meaning_eq_iff reached reached' same _ 2 3).mpr
  rw [ReadAlike, read]
  rcases List.map_eq_cons_iff.mp listed with ⟨entry, rest, entries, named, -⟩
  have array : (argRequest noNumerals entry).NamesArray := ⟨arrayName, named, rfl⟩
  have formats : formatOf left.args arrayName = formatOf right.args arrayName := by
    rcases Option.isSome_iff_exists.mp onLeft.2 with ⟨codec, known⟩
    rw [run_cons] at reached reached'
    rcases Option.bind_eq_some_iff.mp reached with ⟨between, added, last⟩
    cases last
    rw [added, Option.bind_some, run_cons] at reached'
    rcases Option.bind_eq_some_iff.mp reached' with ⟨after, again, last⟩
    cases last
    rcases attempt_eq_some again with ⟨ended, returned, -⟩
    have grows := argsGrow_program clientSide (.add (byteArray 3)) left
    rw [returned] at grows
    rw [known, formatOf_of_grows grows known]
  show ArraysAlike noNumerals ((argEntries desc).getD []) left.args right.args
  rw [entries]
  exact ⟨fun _ => .inl formats, fun other => absurd array other⟩

/-- The name of arrays is unknown to a new manager and known once a protocol has one. -/
theorem meaning_array_after_array :
    ∃ world, run (historyStep clientSide) (.init initArgs []) [.load (.add (byteArray 2))] =
        some world ∧ tableTypes initArgs = tableTypes world.args ∧
      meaning clientSide 1 (oneArg "pto/s_b.pto" "array") (.init initArgs []) = .ret none ∧
      ∃ list, meaning clientSide 2 (oneArg "pto/s_b.pto" "array") world = .ret (some list) := by
  have seen : (run (historyStep clientSide) (.init initArgs [])
      [.load (.add (byteArray 2))]).map (fun world => ((tableTypes world.args).length,
        (meaning clientSide 2 (oneArg "pto/s_b.pto" "array") world).returned.join.isSome)) =
        some (0, true) := by
    decide +kernel
  have refused : (meaning clientSide 1 (oneArg "pto/s_b.pto" "array")
      (.init initArgs [])).returned.map Option.isSome = some false := by
    decide +kernel
  rcases Option.map_eq_some_iff.mp seen with ⟨world, reached, facts⟩
  rw [Prod.mk.injEq] at facts
  rcases facts with ⟨noTables, loads⟩
  refine ⟨world, reached, (List.length_eq_zero_iff.mp noTables).symm, ?_, ?_⟩
  · rcases Option.map_eq_some_iff.mp refused with ⟨outcome, returned, absent⟩
    rw [Option.isSome_eq_false_iff, Option.isNone_iff_eq_none] at absent
    exact Exit.returned_eq_some.mp (absent ▸ returned)
  · rcases Option.isSome_iff_exists.mp loads with ⟨list, joined⟩
    exact ⟨list, Exit.returned_eq_some.mp (Option.join_eq_some_iff.mp joined)⟩

end FcallArgManager

end SimpleModule
