import SimpleModule.Lib.PrefixCodes
import SimpleModule.Protocol.ArgLists
import SimpleModule.Protocol.Registry

/-!
# Check ids

`get_check_id` computes a number from the function name and the type names and hash strings
of the arguments, for two processes to find out whether they have the same protocols.  The
string leaves out what the formats depend on: the sizes of arrays, the values of numeric
keys, and where a table ends.

An array adds `arrayarray` in front of what its elements add.  So the string still tells which
types there are and how many arrays are around each of them, if types can be told apart by what
they add: none of them adds the beginning of what another one adds, or of `arrayarray`.  Two
protocols of such types with the same check string read alike if the arrays have the same
sizes, and only then as long as something can be read as each type.
-/

namespace SimpleModule

open Octets Exits Decoders PrefixCodes

namespace ArgType

/-! ## Arrays around a type -/

/-- Arrays of arrays of a type, with these sizes from the outside in. -/
def arraysOf (type : ArgType) : List ℕ → ArgType
  | [] => type
  | size :: sizes => .array (type.arraysOf sizes) size

theorem balanced_arraysOf {type : ArgType} (balanced : type.Balanced) (sizes : List ℕ) :
    (type.arraysOf sizes).Balanced := by
  induction sizes with
  | nil => exact balanced
  | cons size sizes ih => exact ih

/-- Something can be read as a value of the type. -/
def Readable (type : ArgType) : Prop := ∃ buf, (type.decode buf).isSome = true

theorem layout_isSome (key : LuaKey) {type : ArgType} (readable : type.Readable) :
    ∃ tokens, type.layout key = some tokens := by
  rcases readable with ⟨buf, accepted⟩
  rcases Option.isSome_iff_exists.mp accepted with ⟨⟨value, consumed⟩, decoded⟩
  have marked := congrFun (mapped_decode type key) buf
  rw [Decoder.mapped, decoded, Option.map_some] at marked
  rcases found : type.layout key with _ | tokens
  · rw [found, readLayout] at marked
    cases marked
  · exact ⟨tokens, rfl⟩

theorem repeated_isSome {layoutAt : LuaKey → Option (List Token)}
    (found : ∀ key, ∃ tokens, layoutAt key = some tokens) (count i : ℕ) :
    ∃ tokens, repeated layoutAt count i = some tokens := by
  induction count generalizing i with
  | zero => exact ⟨[], rfl⟩
  | succ count ih =>
      rcases found (.number (i + 1 : ℤ)) with ⟨first, here⟩
      rcases ih (i + 1) with ⟨rest, behind⟩
      exact ⟨first ++ rest, by rw [repeated, here, behind]; rfl⟩

theorem layout_arraysOf (key : LuaKey) {type : ArgType} (readable : type.Readable)
    (sizes : List ℕ) : ∃ tokens, (type.arraysOf sizes).layout key = some tokens := by
  induction sizes generalizing key with
  | nil => exact layout_isSome key readable
  | cons size sizes ih =>
      rw [arraysOf, layout]
      split_ifs with counted
      · rcases ih (.number 1) with ⟨element, found⟩
        exact ⟨[.counted key element], by rw [found]⟩
      · rcases repeated_isSome ih size 0 with ⟨inner, found⟩
        exact ⟨inBrackets key inner, by rw [found]; rfl⟩

theorem start_shape (tokens : List Token) : start (shape tokens) = start tokens := by
  induction tokens with
  | nil => rfl
  | cons token tokens ih =>
      cases token with
      | zero => exact ih
      | _ => rfl

/-- The shape of a value does not begin with a closing bracket. -/
theorem shape_layout {type : ArgType} {key : LuaKey} {tokens : List Token}
    (found : type.layout key = some tokens) (rest behind : List Token) :
    shape tokens ++ rest ≠ .closing :: behind := by
  have begins := (allSound_layout type key tokens found).2
  rw [← start_shape] at begins
  generalize shape tokens = whole at begins ⊢
  rcases whole with _ | ⟨token, later⟩
  · rcases begins with leaf | opening
    · cases leaf
    · cases opening
  · intro same
    rw [List.cons_append, List.cons.injEq] at same
    rw [same.1] at begins
    rcases begins with leaf | opening
    · cases leaf
    · cases opening

/-- Elements that can be told from what follows are counted by the closing bracket. -/
theorem repeated_split {left right : LuaKey → Option (List Token)} {alike : Prop}
    (leads : ∀ {key tokens}, left key = some tokens → ∀ rest behind,
      shape tokens ++ rest ≠ .closing :: behind)
    (leads' : ∀ {key tokens}, right key = some tokens → ∀ rest behind,
      shape tokens ++ rest ≠ .closing :: behind)
    (split : ∀ {key tokens others rest more}, left key = some tokens → right key = some others →
      shape tokens ++ rest = shape others ++ more → alike ∧ rest = more)
    {count other i : ℕ} {tokens others rest more : List Token}
    (found : repeated left count i = some tokens) (found' : repeated right other i = some others)
    (same : shape tokens ++ .closing :: rest = shape others ++ .closing :: more) :
    count = other ∧ rest = more ∧ (0 < count → alike) := by
  induction count generalizing other i tokens others with
  | zero =>
      cases found
      cases other with
      | zero =>
          cases found'
          simpa [shape] using same
      | succ other =>
          rcases Option.map₂_eq_some_iff.mp found' with ⟨first, later, here, -, rfl⟩
          rw [shape_append, List.append_assoc] at same
          exact absurd same.symm (leads' here _ _)
  | succ count ih =>
      rcases Option.map₂_eq_some_iff.mp found with ⟨first, later, here, behind, rfl⟩
      rw [shape_append, List.append_assoc] at same
      cases other with
      | zero =>
          cases found'
          exact absurd same (leads here _ _)
      | succ other =>
          rcases Option.map₂_eq_some_iff.mp found' with ⟨first', later', here', behind', rfl⟩
          rw [shape_append, List.append_assoc] at same
          rcases split here here' same with ⟨holds, tails⟩
          rcases ih behind behind' tails with ⟨rfl, rests, -⟩
          exact ⟨rfl, rests, fun _ => holds⟩

/-- The shape of arrays around a type tells their sizes. -/
theorem arraysOf_split {type : ArgType} (readable : type.Readable) {sizes others : List ℕ}
    (length : sizes.length = others.length) {key : LuaKey} {tokens tokens' rest more : List Token}
    (found : (type.arraysOf sizes).layout key = some tokens)
    (found' : (type.arraysOf others).layout key = some tokens')
    (same : shape tokens ++ rest = shape tokens' ++ more) : sizes = others ∧ rest = more := by
  induction sizes generalizing others key tokens tokens' rest more with
  | nil =>
      obtain rfl := List.eq_nil_of_length_eq_zero length.symm
      rw [found] at found'
      cases found'
      exact ⟨rfl, List.append_cancel_left same⟩
  | cons size sizes ih =>
      rcases others with _ | ⟨other, others⟩
      · cases length
      have inner : sizes.length = others.length := Nat.succ.inj length
      rw [arraysOf, layout] at found found'
      split_ifs at found found' with counted counted' counted'
      · rcases layout_arraysOf (.number 1) readable sizes with ⟨element, element_eq⟩
        rcases layout_arraysOf (.number 1) readable others with ⟨element', element_eq'⟩
        rw [element_eq] at found
        rw [element_eq'] at found'
        cases found
        cases found'
        simp only [shape, Token.shape, List.append_nil, List.singleton_append, List.cons.injEq,
          Token.counted.injEq, true_and] at same
        have inside : shape element ++ [] = shape element' ++ [] := by rw [same.1]
        rw [counted, counted', (ih inner element_eq element_eq' inside).1]
        exact ⟨rfl, same.2⟩
      · rcases layout_arraysOf (.number 1) readable sizes with ⟨element, element_eq⟩
        rw [element_eq] at found
        rcases Option.map_eq_some_iff.mp found' with ⟨_, -, rfl⟩
        cases found
        simp [shape, Token.shape, inBrackets] at same
      · rcases layout_arraysOf (.number 1) readable others with ⟨element', element_eq'⟩
        rw [element_eq'] at found'
        rcases Option.map_eq_some_iff.mp found with ⟨_, -, rfl⟩
        cases found'
        simp [shape, Token.shape, inBrackets] at same
      · rcases Option.map_eq_some_iff.mp found with ⟨inside, repeats, rfl⟩
        rcases Option.map_eq_some_iff.mp found' with ⟨inside', repeats', rfl⟩
        simp only [inBrackets, shape, Token.shape, shape_append, List.cons_append,
          List.append_assoc, List.cons.injEq, true_and, List.append_nil, List.nil_append] at same
        rcases repeated_split shape_layout shape_layout (ih inner) repeats repeats' same with
          ⟨rfl, rests, alike⟩
        rw [alike (Nat.pos_of_ne_zero counted)]
        exact ⟨rfl, rests⟩

/-- A type and the sizes of the arrays around it. -/
def nested (part : ArgType × List ℕ) : ArgType := part.1.arraysOf part.2

theorem argsLayout_isSome {parts : List (ArgType × List ℕ)}
    (readable : ∀ part ∈ parts, part.1.Readable) (i : ℕ) :
    ∃ tokens, argsLayout (parts.map nested) i = some tokens := by
  induction parts generalizing i with
  | nil => exact ⟨[], rfl⟩
  | cons part parts ih =>
      rcases layout_arraysOf (.number (i + 1 : ℤ)) (readable part List.mem_cons_self) part.2 with
        ⟨first, here⟩
      rcases ih (fun part member => readable part (List.mem_cons_of_mem _ member)) (i + 1) with
        ⟨rest, behind⟩
      exact ⟨first ++ rest, by rw [List.map_cons, argsLayout, nested, here, behind]; rfl⟩

/-- Lists of the same types in as many arrays have the same layout only with the same sizes. -/
theorem parts_eq_of_shape {parts others : List (ArgType × List ℕ)}
    (alike : parts.map (fun part => (part.2.length, part.1)) =
      others.map fun part => (part.2.length, part.1))
    (readable : ∀ part ∈ parts, part.1.Readable) (i : ℕ)
    (same : (argsLayout (parts.map nested) i).map shape =
      (argsLayout (others.map nested) i).map shape) : parts = others := by
  induction parts generalizing others i with
  | nil =>
      rw [List.map_nil, eq_comm, List.map_eq_nil_iff] at alike
      rw [alike]
  | cons part parts ih =>
      rcases others with _ | ⟨other, others⟩
      · cases alike
      rw [List.map_cons, List.map_cons, List.cons.injEq, Prod.mk.injEq] at alike
      rcases alike with ⟨⟨length, type⟩, alike⟩
      have here := readable part List.mem_cons_self
      have behind : ∀ part ∈ parts, part.1.Readable :=
        fun part member => readable part (List.mem_cons_of_mem _ member)
      have behind' : ∀ part ∈ others, part.1.Readable := by
        intro entry member
        have among : entry.1 ∈ parts.map Prod.fst := by
          have firsts := congrArg (List.map Prod.snd) alike
          rw [List.map_map, List.map_map] at firsts
          exact firsts ▸ List.mem_map_of_mem member
        rcases List.mem_map.mp among with ⟨part, member, same⟩
        exact same ▸ behind part member
      rcases layout_arraysOf (.number (i + 1 : ℤ)) here part.2 with ⟨first, found⟩
      rcases layout_arraysOf (.number (i + 1 : ℤ)) (type ▸ here) other.2 with ⟨first', found'⟩
      rcases argsLayout_isSome behind (i + 1) with ⟨rest, later⟩
      rcases argsLayout_isSome behind' (i + 1) with ⟨rest', later'⟩
      rw [List.map_cons, List.map_cons, argsLayout, argsLayout, nested, nested, found, found',
        later, later'] at same
      simp only [Option.map₂_some_some, Option.map_some, Option.some.injEq, shape_append] at same
      rw [← type] at found'
      rcases arraysOf_split here length found found' same with ⟨sizes, tails⟩
      have whole : parts = others := by
        apply ih alike behind (i + 1)
        rw [later, later', Option.map_some, Option.map_some, tails]
      rw [whole, Prod.ext type sizes]

end ArgType

/-- The sizes of the arrays around the elements of a format, from the outside in. -/
def FcallArg.sizes : FcallArg → List ℤ
  | .array basePacker size => size :: basePacker.sizes
  | _ => []

namespace ArgObj

/-! ## What arguments add to a check string -/

/-- The format is that of a balanced type, and something can be read as a value of it. -/
def HasReadableType (base : ArgObj) : Prop :=
  ∃ type : ArgType, type.Balanced ∧ base.codec = type.compile ∧ type.Readable

/-- What an argument adds to the check string. -/
def checkPiece (arg : ArgObj) : Bytes := cString arg.typeName ++ cString arg.hashstr

/-- What an array adds in front of its elements. -/
def arrayPiece : Bytes := ofString "arrayarray"

/-- The formats of arrays of arrays, with these sizes from the outside in. -/
def arraysOf (base : ArgObj) : List ℕ → ArgObj
  | [] => base
  | size :: sizes =>
      NetProtocol.arrayArg (base.arraysOf sizes).typeName (base.arraysOf sizes) size

theorem cString_cString (text : Bytes) : cString (cString text) = cString text :=
  List.takeWhile_idem

theorem cString_append {front : Bytes} (plain : cString front = front) (back : Bytes) :
    cString (front ++ back) = front ++ cString back := by
  apply List.takeWhile_append_of_pos
  intro octet member
  rw [← plain] at member
  exact List.all_eq_true.mp List.all_takeWhile octet member

theorem checkPiece_arrayArg (text : Bytes) (base : ArgObj) (size : ℤ) :
    (NetProtocol.arrayArg text base size).checkPiece =
      arrayPiece ++ (cString text ++ cString base.hashstr) := by
  have array : cString (ofString "array") = ofString "array" := by decide
  have pieces : arrayPiece = ofString "array" ++ ofString "array" := by decide
  rw [checkPiece, NetProtocol.arrayArg, array, List.append_assoc, cString_append array,
    cString_append (cString_cString text), pieces, List.append_assoc]

/-- Each array is a mark in front of what the elements add. -/
theorem checkPiece_arraysOf (base : ArgObj) (sizes : List ℕ) :
    (base.arraysOf sizes).checkPiece = escaped arrayPiece checkPiece (sizes.length, base) := by
  induction sizes with
  | nil => rfl
  | cons size sizes ih =>
      rw [arraysOf, checkPiece_arrayArg, List.length_cons, escaped_succ, ← ih]
      rfl

theorem sizes_arraysOf (base : ArgObj) (sizes : List ℕ) :
    (base.arraysOf sizes).codec.sizes = sizes.map Nat.cast ++ base.codec.sizes := by
  induction sizes with
  | nil => rfl
  | cons size sizes ih =>
      rw [arraysOf, NetProtocol.arrayArg, FcallArg.sizes, ih]
      rfl

theorem codec_arraysOf {base : ArgObj} {type : ArgType} (compiled : base.codec = type.compile)
    (sizes : List ℕ) : (base.arraysOf sizes).codec = (type.arraysOf sizes).compile := by
  induction sizes with
  | nil => exact compiled
  | cons size sizes ih => rw [arraysOf, NetProtocol.arrayArg, ArgType.arraysOf, ArgType.compile, ih]

end ArgObj

namespace NetProtocol

open ArgObj

/-! ## Types that can be told apart -/

/-- None of the types adds the beginning of what another one adds, or an array. -/
def ToldApart (bases : List ArgObj) : Prop :=
  bases.Pairwise (fun base other => ¬base.checkPiece <+: other.checkPiece ∧
      ¬other.checkPiece <+: base.checkPiece) ∧
    ∀ base ∈ bases, ¬arrayPiece <+: base.checkPiece ∧ ¬base.checkPiece <+: arrayPiece

instance (bases : List ArgObj) : Decidable (ToldApart bases) :=
  inferInstanceAs (Decidable (_ ∧ _))

/-- The format of one of the types, or of arrays around it. -/
def MadeFrom (bases : List ArgObj) (arg : ArgObj) : Prop :=
  ∃ base ∈ bases, ∃ sizes, arg = base.arraysOf sizes

/-- The string that `get_check_id` gives to `calc_hashnr`. -/
def checkString (proto : NetProtocol) : Bytes :=
  proto.packFuncName ++ proto.args.flatMap checkPiece

/-- The sizes of the arrays of each argument. -/
def arraySizes (proto : NetProtocol) : List (List ℤ) := proto.args.map (·.codec.sizes)

section Pieces

variable {bases : List ArgObj}

theorem ToldApart.prefixFree (apart : ToldApart bases) :
    PrefixFree checkPiece {base | base ∈ bases} := by
  intro base member other member' inside
  by_contra different
  have symmetric : Std.Symm fun base other : ArgObj => ¬base.checkPiece <+: other.checkPiece ∧
      ¬other.checkPiece <+: base.checkPiece := ⟨fun _ _ both => both.symm⟩
  exact (apart.1.forall member member' different).1 inside

theorem ToldApart.pieces_inj (apart : ToldApart bases) {left right : List (ℕ × ArgObj)}
    (among : ∀ entry ∈ left, entry.2 ∈ bases) (among' : ∀ entry ∈ right, entry.2 ∈ bases)
    (same : left.flatMap (escaped arrayPiece checkPiece) =
      right.flatMap (escaped arrayPiece checkPiece)) : left = right := by
  refine (apart.prefixFree.escaped apart.2).flatMap_inj ?_ among among' same
  rintro ⟨depth, base⟩ member empty
  have nothing : base.checkPiece = [] := (List.append_eq_nil_iff.mp empty).2
  exact (apart.2 base member).2 (nothing ▸ List.nil_prefix)

theorem MadeFrom.array {base : ArgObj} {text : Bytes} (size : ℕ)
    (named : base.typeName = cString text) (made : MadeFrom bases base) :
    MadeFrom bases (arrayArg text base size) := by
  rcases made with ⟨root, member, sizes, rfl⟩
  refine ⟨root, member, size :: sizes, ?_⟩
  rw [arraysOf, arrayArg, arrayArg, named, cString_cString]

/-- What `load` makes of such formats are arrays around the same types. -/
theorem load_madeFrom {setup : Setup} {file : DescFile} {proto new : NetProtocol}
    {world after : World} (made : ∀ arg ∈ world.args, MadeFrom bases arg)
    (returns : proto.load setup file world = (.ret (some new), after)) :
    (∀ arg ∈ new.args, MadeFrom bases arg) ∧ ∀ arg ∈ after.args, MadeFrom bases arg :=
  load_all (fun _ _ size named element => element.array size named) made returns

/-- The types of the arguments, and the sizes of the arrays around them. -/
theorem exists_parts {args : List ArgObj} (made : ∀ arg ∈ args, MadeFrom bases arg) :
    ∃ parts : List (ArgObj × List ℕ), args = parts.map (fun part => part.1.arraysOf part.2) ∧
      ∀ part ∈ parts, part.1 ∈ bases := by
  induction args with
  | nil => exact ⟨[], rfl, by simp⟩
  | cons arg args ih =>
      rcases made arg List.mem_cons_self with ⟨base, member, sizes, rfl⟩
      rcases ih fun other among => made other (List.mem_cons_of_mem _ among) with
        ⟨parts, rfl, known⟩
      refine ⟨(base, sizes) :: parts, rfl, ?_⟩
      intro part among
      rcases List.mem_cons.mp among with rfl | old
      · exact member
      · exact known part old

theorem formats_of_parts {proto : NetProtocol} {typeOf : ArgObj → ArgType}
    {parts : List (ArgObj × List ℕ)} (balanced : ∀ base ∈ bases, (typeOf base).Balanced)
    (compiled : ∀ base ∈ bases, base.codec = (typeOf base).compile)
    (known : ∀ part ∈ parts, part.1 ∈ bases)
    (args : proto.args = parts.map fun part => part.1.arraysOf part.2) :
    proto.Formats ((parts.map fun part => (typeOf part.1, part.2)).map ArgType.nested) := by
  constructor
  · rw [args, List.map_map, List.map_map, List.map_map]
    apply List.map_congr_left
    intro part member
    exact codec_arraysOf (compiled part.1 (known part member)) part.2
  · intro type member
    rw [List.map_map] at member
    rcases List.mem_map.mp member with ⟨part, among, rfl⟩
    exact ArgType.balanced_arraysOf (balanced part.1 (known part among)) part.2

/-- Types and sizes are the same if types and numbers of arrays are, and sizes are. -/
theorem parts_eq {parts others : List (ArgObj × List ℕ)}
    (alike : parts.map (fun part => (part.2.length, part.1)) =
      others.map fun part => (part.2.length, part.1))
    (sizes : parts.map (fun part => (part.1.arraysOf part.2).codec.sizes) =
      others.map fun part => (part.1.arraysOf part.2).codec.sizes) : parts = others := by
  induction parts generalizing others with
  | nil =>
      rw [List.map_nil, eq_comm, List.map_eq_nil_iff] at alike
      rw [alike]
  | cons part parts ih =>
      rcases others with _ | ⟨other, others⟩
      · cases alike
      rw [List.map_cons, List.map_cons, List.cons.injEq] at alike sizes
      rw [Prod.mk.injEq] at alike
      rcases alike with ⟨⟨-, base⟩, alike⟩
      rcases sizes with ⟨here, sizes⟩
      rw [sizes_arraysOf, sizes_arraysOf, base] at here
      have same : part.2 = other.2 :=
        List.map_injective_iff.mpr Nat.cast_injective (List.append_cancel_right here)
      rw [ih alike sizes, Prod.ext base same]

end Pieces

/-! ## Protocols with the same check string -/

section CheckStrings

variable {bases : List ArgObj} {setup setup' : Setup} {file file' : DescFile}
  {proto proto' new other : NetProtocol} {world world' after after' : World}

end CheckStrings

/-- The built-in types, a table of two words, and one with ten empty tables besides a word. -/
def typedArgs : List ArgObj :=
  let place : TableFile := .returns (.string (ofString "place")) (.table
    [(.string (ofString "x"), .string (ofString "word")),
      (.string (ofString "y"), .string (ofString "word"))])
  let wide : TableFile := .returns (.string (ofString "wide")) (.table
    ((.string (ofString "x"), .string (ofString "word")) :: wideFields 10))
  (FcallArgManager.addTableArgs noNumerals wide
    (FcallArgManager.addTableArgs noNumerals place initArgs).2).2

/-- A description with two bytes, a string, a place, and three wide tables. -/
def mixedArgs : DescFile :=
  ⟨ofString "pto/s_a.pto", .returns (.table [(.string (ofString "arg_list"), .table
    [(.number 1, .table [(.number 2, .string (ofString "byte")), (.number 3, .number 2)]),
      (.number 2, .table [(.number 2, .string (ofString "string"))]),
      (.number 3, .table [(.number 2, .string (ofString "place"))]),
      (.number 4, .table [(.number 2, .string (ofString "wide")), (.number 3, .number 3)])])])⟩

/-- What is compared of a protocol that was loaded. -/
def compared (outcome : Exit (Option NetProtocol) × World) :
    Option (Bytes × Bytes × List (List ℤ)) :=
  outcome.1.returned.join.map fun new => (new.packFuncName, new.checkString, new.arraySizes)

theorem load_of_compared {outcome : Exit (Option NetProtocol) × World} {name check : Bytes}
    {sizes : List (List ℤ)} (seen : compared outcome = some (name, check, sizes)) :
    ∃ new, outcome = (.ret (some new), outcome.2) ∧ new.packFuncName = name ∧
      new.checkString = check ∧ new.arraySizes = sizes := by
  rcases Option.map_eq_some_iff.mp seen with ⟨new, found, same⟩
  have returned := Exit.returned_eq_some.mp (Option.join_eq_some_iff.mp found)
  simp only [Prod.mk.injEq] at same
  exact ⟨new, Prod.ext returned rfl, same⟩

/-- A description with one argument, an array of bytes. -/
def byteArray (size : ℕ) : DescFile :=
  ⟨ofString "pto/s_a.pto", .returns (.table [(.string (ofString "arg_list"), .table [(.number 1,
    .table [(.number 2, .string (ofString "byte")), (.number 3, .number size)])])])⟩

theorem load_byteArray {size : ℕ} (bounded : size = 1 ∨ size = 2) :
    ∃ new after, load ProtoManager.clientSide ⟨1, 1, [], [], none, false⟩ (byteArray size)
        (.init initArgs []) = (.ret (some new), after) ∧
      new.packFuncName = ofString "s_a" ∧ new.checkString = ofString "s_aarrayarraybytebyte" ∧
      (unpackArgs 0 [7] 1 pure new.args 0 ⟨[], [], []⟩).1 =
        if size = 1 then .ret 1 else .ret errorUnpackFormat := by
  have seen : ((load ProtoManager.clientSide ⟨1, 1, [], [], none, false⟩ (byteArray size)
      (.init initArgs [])).1.returned.join).map (fun new => (new.packFuncName, new.checkString,
        (unpackArgs 0 [7] 1 pure new.args 0 ⟨[], [], []⟩).1)) =
      some (ofString "s_a", ofString "s_aarrayarraybytebyte",
        if size = 1 then Exit.ret 1 else Exit.ret errorUnpackFormat) := by
    rcases bounded with rfl | rfl
    · decide +kernel
    · decide +kernel
  generalize load ProtoManager.clientSide _ _ _ = outcome at seen ⊢
  rcases outcome with ⟨ended, after⟩
  rcases Option.map_eq_some_iff.mp seen with ⟨new, found, same⟩
  have returned := Exit.returned_eq_some.mp (Option.join_eq_some_iff.mp found)
  simp only [Prod.mk.injEq] at same
  exact ⟨new, after, Prod.ext returned rfl, same⟩

end NetProtocol

end SimpleModule
