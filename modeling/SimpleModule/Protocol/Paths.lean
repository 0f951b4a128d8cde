import SimpleModule.Protocol.Load

/-!
# Paths of description files

The path of a description file gives the name of the protocol and the side that
implements it.  `pathRole` says how a path is meant to be read: the base is what follows
the last slash, or the last backslash in a path without a slash, and the name is what
precedes the last dot of the base.

`process_type` compares the unsigned results of `find_last_of` with zero and with each
other.  A path without a slash is therefore refused before a backslash is looked for, and
a path without a dot is accepted as if the dot followed its last character.
-/

namespace SimpleModule

open Octets

/-! ## The last occurrence of a mark -/

section CutLast

variable {α : Type} [DecidableEq α]

/-- What precedes and what follows the last occurrence of a mark. -/
def cutLast (mark : α) : List α → Option (List α × List α)
  | [] => none
  | head :: rest =>
      match cutLast mark rest with
      | some (front, back) => some (head :: front, back)
      | none => if head = mark then some ([], rest) else none

theorem cutLast_eq_none_iff {mark : α} {text : List α} :
    cutLast mark text = none ↔ mark ∉ text := by
  induction text with
  | nil => simp [cutLast]
  | cons head rest ih =>
      rw [cutLast]
      rcases later : cutLast mark rest with _ | ⟨front, back⟩
      · have absent : mark ∉ rest := ih.mp later
        simp [absent, eq_comm]
      · have present : mark ∈ rest := by
          by_contra absent
          rw [ih.mpr absent] at later
          cases later
        simp [present]

theorem cutLast_append {mark : α} {back : List α} (last : mark ∉ back) (front : List α) :
    cutLast mark (front ++ mark :: back) = some (front, back) := by
  induction front with
  | nil => simp [cutLast, cutLast_eq_none_iff.mpr last]
  | cons head front ih => simp [cutLast, ih]

theorem exists_cut {mark : α} {text : List α} (present : mark ∈ text) :
    ∃ front back, text = front ++ mark :: back ∧ mark ∉ back := by
  induction text with
  | nil => cases present
  | cons head rest ih =>
      by_cases later : mark ∈ rest
      · rcases ih later with ⟨front, back, rfl, last⟩
        exact ⟨head :: front, back, rfl, last⟩
      · have here : mark = head := (List.mem_cons.mp present).resolve_right later
        exact ⟨[], rest, by rw [here, List.nil_append], later⟩

theorem cutLast_eq_some_iff {mark : α} {text front back : List α} :
    cutLast mark text = some (front, back) ↔ text = front ++ mark :: back ∧ mark ∉ back := by
  constructor
  · intro cut
    have present : mark ∈ text := by
      by_contra absent
      rw [cutLast_eq_none_iff.mpr absent] at cut
      cases cut
    rcases exists_cut present with ⟨front', back', rfl, last⟩
    rw [cutLast_append last] at cut
    cases cut
    exact ⟨rfl, last⟩
  · rintro ⟨rfl, last⟩
    exact cutLast_append last front

end CutLast

namespace NetProtocol

/-! ## How a path is meant to be read -/

/-- The role that the beginning of a name gives a protocol on a side. -/
def stemRole (curChar : CurChar) (stem : Bytes) : Option (Bytes × Bool) :=
  if stem.take 2 = ofString "c_" then some (stem, curChar = .client)
  else if stem.take 2 = ofString "s_" then some (stem, curChar = .server)
  else none

/-- Whether a name begins like the name of a protocol. -/
def HasRole (stem : Bytes) : Prop := stem.take 2 = ofString "c_" ∨ stem.take 2 = ofString "s_"

instance (stem : Bytes) : Decidable (HasRole stem) :=
  inferInstanceAs (Decidable (_ ∨ _))

theorem stemRole_eq_none_iff {curChar : CurChar} {stem : Bytes} :
    stemRole curChar stem = none ↔ ¬HasRole stem := by
  simp only [stemRole, HasRole]
  split_ifs with client server
  · simp [client]
  · simp [server]
  · simp [client, server]

/-- The separator of a path: a slash if it has one, and otherwise a backslash. -/
def separator (name : Bytes) : Byte := if 47 ∈ name then 47 else 92

/-- The part of a path between its last separator and the last dot behind it. -/
def pathStem (name : Bytes) : Option Bytes := do
  let (_, base) ← cutLast (separator name) name
  let (stem, _) ← cutLast 46 base
  return stem

/-- The name and the role that a path is meant to give a protocol. -/
def pathRole (curChar : CurChar) (path : Bytes) : Option (Bytes × Bool) :=
  (pathStem (cString path)).bind (stemRole curChar)

/-- A path has a stem exactly if it is cut by a separator and a dot behind it. -/
theorem pathStem_eq_some_iff {name stem : Bytes} :
    pathStem name = some stem ↔
      ∃ directory extension, name = directory ++ separator name :: (stem ++ 46 :: extension) ∧
        separator name ∉ stem ++ 46 :: extension ∧ 46 ∉ extension := by
  simp only [pathStem, Option.bind_eq_bind, Option.bind_eq_some_iff, Prod.exists,
    cutLast_eq_some_iff, Option.pure_def, Option.some.injEq]
  constructor
  · rintro ⟨directory, base, ⟨cut, last⟩, stem, extension, ⟨rfl, final⟩, rfl⟩
    exact ⟨directory, extension, cut, last, final⟩
  · rintro ⟨directory, extension, cut, last, final⟩
    exact ⟨directory, _, ⟨cut, last⟩, stem, extension, ⟨rfl, final⟩, rfl⟩

/-! ## How it is read -/

/-- The path of a file, whose characters fit into a `std::string`. -/
structure Path where
  chars : Bytes
  fits : (cString chars).length < npos

theorem findLastOf_absent {char : Byte} {name : Bytes} (absent : char ∉ name) :
    findLastOf char name = npos := by
  have nowhere : name.reverse.findIdx? (· = char) = none := by
    rw [List.findIdx?_eq_none_iff]
    intro octet member
    exact decide_eq_false fun same => absent (same ▸ List.mem_reverse.mp member)
  rw [findLastOf, nowhere]

theorem findLastOf_append {char : Byte} {back : Bytes} (last : char ∉ back) (front : Bytes) :
    findLastOf char (front ++ char :: back) = front.length := by
  have found : (front ++ char :: back).reverse.findIdx? (· = char) = some back.length := by
    have reversed : (front ++ char :: back).reverse =
        back.reverse ++ char :: front.reverse := by
      simp
    have nowhere : back.reverse.findIdx? (· = char) = none := by
      rw [List.findIdx?_eq_none_iff]
      intro octet member
      exact decide_eq_false fun same => last (same ▸ List.mem_reverse.mp member)
    rw [reversed, List.findIdx?_append, nowhere]
    simp [List.findIdx?_cons]
  rw [findLastOf, found]
  simp only [List.length_append, List.length_cons]
  omega

theorem processType_eq (curChar : CurChar) (path : Bytes) :
    processType curChar path =
      if findLastOf 47 (cString path) ≥ findLastOf 46 (cString path) then none
      else stemRole curChar
        (((cString path).drop (findLastOf 47 (cString path) + 1)).take
          (findLastOf 46 (cString path) - (findLastOf 47 (cString path) + 1))) := by
  simp only [processType, stemRole, Nat.not_lt_zero, if_false, false_or]

/-- Without a slash the position of the separator is the largest number. -/
theorem processType_of_no_slash (curChar : CurChar) (path : Path)
    (absent : 47 ∉ cString path.chars) : processType curChar path.chars = none := by
  have reached : findLastOf 46 (cString path.chars) ≤ npos := by
    by_cases dotted : 46 ∈ cString path.chars
    · rcases exists_cut dotted with ⟨front, back, cut, last⟩
      have short := path.fits
      rw [cut] at short ⊢
      rw [findLastOf_append last]
      simp only [List.length_append] at short
      omega
    · exact (findLastOf_absent dotted).le
  rw [processType_eq, findLastOf_absent absent, if_pos reached]

theorem processType_of_dotted_base (curChar : CurChar) {path directory stem extension : Bytes}
    (cut : cString path = directory ++ 47 :: (stem ++ 46 :: extension))
    (lastSlash : 47 ∉ stem ++ 46 :: extension) (lastDot : 46 ∉ extension) :
    processType curChar path = stemRole curChar stem := by
  have dotted : directory ++ 47 :: (stem ++ 46 :: extension) =
      (directory ++ 47 :: stem) ++ 46 :: extension := by
    simp
  have beginPos := findLastOf_append lastSlash directory
  have endPos := findLastOf_append lastDot (directory ++ 47 :: stem)
  rw [← dotted] at endPos
  have ordered : ¬directory.length ≥ (directory ++ 47 :: stem).length := by
    simp only [List.length_append, List.length_cons]
    omega
  have between : (directory ++ 47 :: stem).length - (directory.length + 1) = stem.length := by
    simp only [List.length_append, List.length_cons]
    omega
  rw [processType_eq, cut, beginPos, endPos, if_neg ordered, between, ← List.drop_drop,
    List.drop_left, List.drop_succ_cons, List.drop_zero, List.take_left]

/-- A dot of the directory only is in front of the separator. -/
theorem processType_of_dotted_directory (curChar : CurChar) {path directory base : Bytes}
    (cut : cString path = directory ++ 47 :: base) (lastSlash : 47 ∉ base) (undotted : 46 ∉ base)
    (dotted : 46 ∈ directory) : processType curChar path = none := by
  rcases exists_cut dotted with ⟨front, back, rfl, last⟩
  have lastDot : 46 ∉ back ++ 47 :: base := by
    simp [last, undotted]
  have beginPos := findLastOf_append lastSlash (front ++ 46 :: back)
  have endPos := findLastOf_append lastDot front
  have reordered : front ++ 46 :: (back ++ 47 :: base) = (front ++ 46 :: back) ++ 47 :: base := by
    simp
  rw [reordered] at endPos
  have before : (front ++ 46 :: back).length ≥ front.length := by
    simp only [List.length_append]
    omega
  rw [processType_eq, cut, beginPos, endPos, if_pos before]

/-- Without a dot the name reaches to the end of the path. -/
theorem processType_of_undotted (curChar : CurChar) (path : Path) {directory base : Bytes}
    (cut : cString path.chars = directory ++ 47 :: base) (lastSlash : 47 ∉ base)
    (undotted : 46 ∉ cString path.chars) :
    processType curChar path.chars = stemRole curChar base := by
  have beginPos := findLastOf_append lastSlash directory
  have short := path.fits
  rw [cut, List.length_append, List.length_cons] at short
  have ordered : ¬directory.length ≥ npos := by omega
  have whole : base.length ≤ npos - (directory.length + 1) := by omega
  rw [processType_eq, findLastOf_absent undotted, cut, beginPos, if_neg ordered,
    ← List.drop_drop, List.drop_left, List.drop_succ_cons, List.drop_zero,
    List.take_of_length_le whole]

/-! ## Where the two readings agree -/

/-- A path without any dot whose base begins like a name. -/
def UndottedName (name : Bytes) : Prop :=
  46 ∉ name ∧ ∃ directory base, cutLast 47 name = some (directory, base) ∧ HasRole base

/-- A path without slashes that names a protocol behind its last backslash. -/
def BackslashName (name : Bytes) : Prop :=
  47 ∉ name ∧ ∃ stem, pathStem name = some stem ∧ HasRole stem

theorem pathRole_eq_none_iff {curChar : CurChar} {path : Bytes} :
    pathRole curChar path = none ↔ ¬∃ stem, pathStem (cString path) = some stem ∧ HasRole stem := by
  rw [pathRole, Option.bind_eq_none_iff]
  push Not
  simp only [stemRole_eq_none_iff]

theorem processType_eq_pathRole_of_dotted (curChar : CurChar) {path directory base : Bytes}
    (cut : cString path = directory ++ 47 :: base) (lastSlash : 47 ∉ base)
    (dotted : 46 ∈ cString path) : processType curChar path = pathRole curChar path := by
  have slashed : separator (cString path) = 47 := by
    simp [separator, cut]
  have baseCut : cutLast (separator (cString path)) (cString path) = some (directory, base) := by
    rw [slashed, cut]
    exact cutLast_append lastSlash directory
  by_cases baseDotted : 46 ∈ base
  · rcases exists_cut baseDotted with ⟨stem, extension, rfl, lastDot⟩
    rw [processType_of_dotted_base curChar cut lastSlash lastDot, pathRole, pathStem, baseCut]
    simp [cutLast_append lastDot]
  · have inDirectory : 46 ∈ directory := by
      simpa [cut, baseDotted] using dotted
    rw [processType_of_dotted_directory curChar cut lastSlash baseDotted inDirectory, pathRole,
      pathStem, baseCut]
    simp [cutLast_eq_none_iff.mpr baseDotted]

/--
`process_type` reads a path as it is meant exactly when the path is neither one without
dots whose base begins like a name nor one that needs the backslash as its separator.
-/
theorem processType_eq_pathRole_iff (curChar : CurChar) (path : Path) :
    processType curChar path.chars = pathRole curChar path.chars ↔
      ¬UndottedName (cString path.chars) ∧ ¬BackslashName (cString path.chars) := by
  by_cases slashed : 47 ∈ cString path.chars
  · rcases exists_cut slashed with ⟨directory, base, cut, lastSlash⟩
    have baseCut : cutLast 47 (cString path.chars) = some (directory, base) :=
      cutLast_eq_some_iff.mpr ⟨cut, lastSlash⟩
    have noBackslash : ¬BackslashName (cString path.chars) := fun named => named.1 slashed
    by_cases dotted : 46 ∈ cString path.chars
    · have notUndotted : ¬UndottedName (cString path.chars) := fun named => named.1 dotted
      exact iff_of_true (processType_eq_pathRole_of_dotted curChar cut lastSlash dotted)
        ⟨notUndotted, noBackslash⟩
    · have separated : separator (cString path.chars) = 47 := by
        simp [separator, slashed]
      have baseUndotted : 46 ∉ base := fun member => dotted (by simp [cut, member])
      have unnamed : pathRole curChar path.chars = none := by
        rw [pathRole, pathStem, separated, baseCut]
        simp [cutLast_eq_none_iff.mpr baseUndotted]
      rw [processType_of_undotted curChar path cut lastSlash dotted, unnamed,
        stemRole_eq_none_iff]
      simp [UndottedName, dotted, baseCut, noBackslash]
  · have notUndotted : ¬UndottedName (cString path.chars) := by
      rintro ⟨_, directory, base, cut, _⟩
      rw [cutLast_eq_none_iff.mpr slashed] at cut
      cases cut
    rw [processType_of_no_slash curChar path slashed, eq_comm, pathRole_eq_none_iff]
    simp [notUndotted, BackslashName, slashed]

/-- The two kinds of paths: one is accepted without its dot, the other refused. -/
theorem processType_misreads :
    processType .server (ofString "proto/s_login") = some (ofString "s_login", true) ∧
      pathRole .server (ofString "proto/s_login") = none ∧
      processType .server (ofString "proto\\s_login.pto") = none ∧
      pathRole .server (ofString "proto\\s_login.pto") = some (ofString "s_login", true) := by
  decide +kernel

end NetProtocol

end SimpleModule
