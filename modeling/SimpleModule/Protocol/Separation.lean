import SimpleModule.Protocol.Layout

/-!
# Layouts that read the same

A layout has two sides: the items on the wire, in their order, and the shape of the value,
which is all but the counts that have to be zero.  Such a count leaves no trace in the
value, so that it may stand on either side of a bracket.

The main result is that two layouts read the same from every input exactly if they have
the same items and the same shape.  One direction is by an input for each difference: two
layouts are compared token by token, and an input that both read in the same way is
cancelled from both.
-/

namespace SimpleModule

open Octets Decoders FcallArg

/-! ## Items and shape -/

/-- What stands on the wire. -/
inductive Item
  | scalar (kind : Scalar)
  | zero
  | counted (element : List Item)

mutual

def Token.items : Token → List Item
  | .scalar _ kind => [.scalar kind]
  | .opening _ => []
  | .closing => []
  | .zero => [.zero]
  | .counted _ element => [.counted (items element)]

def items : List Token → List Item
  | [] => []
  | token :: rest => token.items ++ items rest

end

mutual

def Token.shape : Token → List Token
  | .scalar key kind => [.scalar key kind]
  | .opening key => [.opening key]
  | .closing => [.closing]
  | .zero => []
  | .counted key element => [.counted key (shape element)]

def shape : List Token → List Token
  | [] => []
  | token :: rest => token.shape ++ shape rest

end

mutual

def Token.size : Token → ℕ
  | .counted _ element => tokensSize element + 3
  | .scalar _ _ => 1
  | .opening _ => 1
  | .closing => 1
  | .zero => 1

def tokensSize : List Token → ℕ
  | [] => 0
  | token :: rest => token.size + tokensSize rest

end

theorem items_append (front back : List Token) :
    items (front ++ back) = items front ++ items back := by
  induction front with
  | nil => simp [items]
  | cons token front ih => simp [items, ih]

theorem shape_append (front back : List Token) :
    shape (front ++ back) = shape front ++ shape back := by
  induction front with
  | nil => simp [shape]
  | cons token front ih => simp [shape, ih]

theorem tokensSize_append (front back : List Token) :
    tokensSize (front ++ back) = tokensSize front + tokensSize back := by
  induction front with
  | nil => simp [tokensSize]
  | cons token front ih => simp [tokensSize, ih, Nat.add_assoc]

/-! ## The first mark -/

/-- The first mark of whatever is read. -/
def start : List Token → Option (Mark Unit)
  | [] => none
  | .scalar key _ :: _ => some (.leaf key ())
  | .opening key :: _ => some (.opening key)
  | .closing :: _ => some .closing
  | .zero :: rest => start rest
  | .counted key _ :: _ => some (.opening key)

theorem skipZeros_eq_some {count : ℕ} {buf : Bytes} {marks : List (Mark LuaValue)} {consumed : ℕ}
    (read : skipZeros count buf = some (marks, consumed)) : marks = [] ∧ consumed = count := by
  simp only [skipZeros] at read
  split_ifs at read
  cases read
  exact ⟨rfl, rfl⟩

theorem start_of_read {tokens : List Token} {buf : Bytes} {marks : List (Mark LuaValue)}
    {consumed : ℕ} (read : readTokens tokens buf = some (marks, consumed)) :
    marks.head?.map Mark.erase = start tokens := by
  induction tokens generalizing buf marks consumed with
  | nil =>
      cases read
      rfl
  | cons token tokens ih =>
      rcases Decoder.append_eq_some.mp read with ⟨front, _, back, _, here, behind, rfl, -⟩
      cases token with
      | scalar key kind =>
          rw [Token.read] at here
          rcases Decoder.mapped_eq_some.mp here with ⟨value, -, rfl⟩
          rfl
      | opening key =>
          cases here
          rfl
      | closing =>
          cases here
          rfl
      | zero =>
          rcases skipZeros_eq_some here with ⟨rfl, -⟩
          exact ih behind
      | counted key element =>
          rw [Token.read] at here
          rcases Decoder.append_eq_some.mp here with ⟨_, _, _, _, ⟨⟩, -, rfl, -⟩
          rfl

/-- The ways to begin without a count of zero. -/
theorem head_of_start {tokens : List Token} (leading : tokens.head? ≠ some .zero) :
    match start tokens with
    | none => tokens = []
    | some (.leaf key _) => ∃ kind rest, tokens = .scalar key kind :: rest
    | some (.opening key) => (∃ rest, tokens = .opening key :: rest) ∨
        ∃ element rest, tokens = .counted key element :: rest
    | some .closing => ∃ rest, tokens = .closing :: rest := by
  rcases tokens with _ | ⟨token, tokens⟩
  · rfl
  · cases token with
    | scalar key kind => exact ⟨kind, tokens, rfl⟩
    | opening key => exact .inl ⟨tokens, rfl⟩
    | closing => exact ⟨tokens, rfl⟩
    | zero => exact absurd rfl leading
    | counted key element => exact .inr ⟨element, tokens, rfl⟩

/-! ## An input for every layout -/

/-- An encoding that does not begin with a zero, and its value. -/
def Scalar.sample : Scalar → Bytes × LuaValue
  | number => ([2, 5], .number 5)
  | byte => ([1], .number 1)
  | word => ([1, 0], .number 1)
  | dword => ([1, 0, 0, 0], .number 1)
  | string => ([1], .string [])

theorem Scalar.exact_sample (kind : Scalar) : kind.decode.Exact kind.sample.1 kind.sample.2 := by
  intro rest
  cases kind with
  | number => simp [decode, sample, decodeNumber, ofLe, int32]
  | byte => simp [decode, sample, decodeFixed, ofLe]
  | word => simp [decode, sample, decodeFixed, ofLe, int16]
  | dword => simp [decode, sample, decodeFixed, ofLe, int32]
  | string => simp [decode, sample, decodeString, decodeChars, ofLe]

theorem exact_scalar (key : LuaKey) (kind : Scalar) :
    (Token.scalar key kind).read.Exact kind.sample.1 [.leaf key kind.sample.2] := by
  intro rest
  rw [Token.read, Decoder.mapped, kind.exact_sample rest]
  rfl

theorem exact_skipZeros (count : ℕ) : (skipZeros count).Exact (List.replicate count 0) [] := by
  intro rest
  simp [skipZeros]

theorem exact_counted_zero (key : LuaKey) (element : List Token) :
    (Token.counted key element).read.Exact [0] [.opening key, .closing] := by
  intro rest
  simp [Token.read, bracketed, readCounted, readElements, Decoder.append, Decoder.give, ofLe]

theorem exists_exact (tokens : List Token) :
    ∃ front marks, (readTokens tokens).Exact front marks := by
  induction tokens with
  | nil => exact ⟨[], [], Decoder.exact_give []⟩
  | cons token tokens ih =>
      rcases ih with ⟨back, others, behind⟩
      have here : ∃ front marks, token.read.Exact front marks := by
        cases token with
        | scalar key kind => exact ⟨_, _, exact_scalar key kind⟩
        | opening key => exact ⟨_, _, Decoder.exact_give _⟩
        | closing => exact ⟨_, _, Decoder.exact_give _⟩
        | zero => exact ⟨_, _, exact_skipZeros 1⟩
        | counted key element => exact ⟨_, _, exact_counted_zero key element⟩
      rcases here with ⟨front, marks, exact⟩
      exact ⟨_, _, exact.append behind⟩

/-! ## Counts of zero -/

theorem append_prefix_iff {α : Type} {front back whole : List α} :
    front ++ back <+: whole ↔ front <+: whole ∧ back <+: whole.drop front.length := by
  constructor
  · rintro ⟨rest, rfl⟩
    simp
  · rintro ⟨⟨rest, rfl⟩, inside⟩
    rw [List.drop_left] at inside
    exact (List.prefix_append_right_inj front).mpr inside

theorem skipZeros_append (count more : ℕ) :
    (skipZeros count).append (skipZeros more) = skipZeros (count + more) := by
  funext buf
  have split : List.replicate (count + more) (0 : Byte) <+: buf ↔
      List.replicate count 0 <+: buf ∧ List.replicate more 0 <+: buf.drop count := by
    rw [List.replicate_add, append_prefix_iff, List.length_replicate]
  by_cases here : List.replicate count (0 : Byte) <+: buf
  · by_cases behind : List.replicate more (0 : Byte) <+: buf.drop count
    · simp [Decoder.append, skipZeros, split, here, behind]
    · simp [Decoder.append, skipZeros, split, here, behind]
  · simp [Decoder.append, skipZeros, split, here]

theorem skipZeros_none {count more : ℕ} (fewer : count < more) {rest : Bytes}
    (nonzero : rest.head? ≠ some 0) : skipZeros more (List.replicate count 0 ++ rest) = none := by
  have split : List.replicate more (0 : Byte) =
      List.replicate count 0 ++ 0 :: List.replicate (more - count - 1) 0 := by
    rw [← List.replicate_succ, ← List.replicate_add]
    congr 1
    omega
  have refused : ¬List.replicate more (0 : Byte) <+: List.replicate count 0 ++ rest := by
    rw [split, List.prefix_append_right_inj]
    rintro ⟨tail, rfl⟩
    exact nonzero rfl
  simp [skipZeros, refused]

/-- The tokens behind some bytes of zero. -/
def readBehind (zeros : ℕ) (tokens : List Token) : Decoder Byte (List (Mark LuaValue)) :=
  (skipZeros zeros).append (readTokens tokens)

theorem readBehind_none (tokens : List Token) : readBehind 0 tokens = readTokens tokens := by
  have nothing : skipZeros 0 = .give [] := by
    funext buf
    simp [skipZeros, Decoder.give]
  rw [readBehind, nothing, Decoder.give_append]

theorem readBehind_zero (zeros : ℕ) (tokens : List Token) :
    readBehind zeros (.zero :: tokens) = readBehind (zeros + 1) tokens := by
  rw [readBehind, readBehind, readTokens, Token.read, ← Decoder.append_assoc, skipZeros_append]

/-- A count of zero may as well stand behind what reads nothing. -/
theorem skipZeros_give (zeros : ℕ) (marks : List (Mark LuaValue))
    (decoder : Decoder Byte (List (Mark LuaValue))) :
    (skipZeros zeros).append ((Decoder.give marks).append decoder) =
      (Decoder.give marks).append ((skipZeros zeros).append decoder) := by
  funext buf
  by_cases here : List.replicate zeros (0 : Byte) <+: buf
  · simp [Decoder.append, Decoder.give, skipZeros, here, Function.comp_def]
  · simp [Decoder.append, Decoder.give, skipZeros, here]

theorem readBehind_opening (zeros : ℕ) (key : LuaKey) (tokens : List Token) :
    readBehind zeros (.opening key :: tokens) =
      (Decoder.give [.opening key]).append (readBehind zeros tokens) := by
  rw [readBehind, readTokens, Token.read, skipZeros_give]
  rfl

theorem readBehind_closing (zeros : ℕ) (tokens : List Token) :
    readBehind zeros (.closing :: tokens) =
      (Decoder.give [.closing]).append (readBehind zeros tokens) := by
  rw [readBehind, readTokens, Token.read, skipZeros_give]
  rfl

theorem start_of_readBehind {zeros : ℕ} {tokens : List Token} {buf : Bytes}
    {marks : List (Mark LuaValue)} {consumed : ℕ}
    (read : readBehind zeros tokens buf = some (marks, consumed)) :
    marks.head?.map Mark.erase = start tokens := by
  rcases Decoder.append_eq_some.mp read with ⟨_, _, _, _, here, behind, rfl, -⟩
  rcases skipZeros_eq_some here with ⟨rfl, -⟩
  exact start_of_read behind

theorem exists_exact_behind (zeros : ℕ) (tokens : List Token) :
    ∃ front marks, (readBehind zeros tokens).Exact front marks := by
  rcases exists_exact tokens with ⟨front, marks, exact⟩
  exact ⟨_, _, (exact_skipZeros zeros).append exact⟩

section Agree

variable {zeros others : ℕ} {left right : List Token}

theorem start_eq (agree : readBehind zeros left = readBehind others right) :
    start left = start right := by
  rcases exists_exact_behind zeros left with ⟨front, marks, exact⟩
  have here := exact []
  have there := here
  rw [agree] at there
  rw [← start_of_readBehind here, ← start_of_readBehind there]

theorem zeros_le {front : Bytes} {marks : List (Mark LuaValue)}
    (exact : (readTokens left).Exact front marks) (nonzero : front.head? ≠ some 0)
    (agree : readBehind zeros left = readBehind others right) : others ≤ zeros := by
  by_contra more
  have read := ((exact_skipZeros zeros).append exact) []
  have refused : readBehind others right (List.replicate zeros 0 ++ front) = none := by
    rw [readBehind, Decoder.append, skipZeros_none (not_le.mp more) nonzero, Option.bind_none]
  rw [List.append_nil] at read
  rw [← agree] at refused
  exact absurd (read.symm.trans refused) (by simp)

/-- What stands behind the zeros, if neither side begins with another one. -/
theorem zeros_cancel {front back : Bytes} {marks others' : List (Mark LuaValue)}
    (exact : (readTokens left).Exact front marks) (nonzero : front.head? ≠ some 0)
    (exact' : (readTokens right).Exact back others') (nonzero' : back.head? ≠ some 0)
    (agree : readBehind zeros left = readBehind others right) :
    zeros = others ∧ readTokens left = readTokens right := by
  have same : zeros = others :=
    le_antisymm (zeros_le exact' nonzero' agree.symm) (zeros_le exact nonzero agree)
  subst same
  exact ⟨rfl, Decoder.append_cancel (exact_skipZeros zeros) (exact_skipZeros zeros) agree⟩

end Agree

/-! ## Scalars -/

/-- Some input is read as a value by one kind and never as the same value by the other. -/
def Scalar.Apart (kind other : Scalar) : Prop :=
  ∃ front value, kind.decode.Exact front value ∧
    ∀ rest consumed, other.decode (front ++ rest) ≠ some (value, consumed)

theorem Scalar.number_apart {other : Scalar} (different : other ≠ number) :
    Apart number other := by
  refine ⟨_, _, number.exact_sample, ?_⟩
  intro rest consumed same
  cases other with
  | number => exact different rfl
  | byte => simp [decode, sample, decodeFixed, ofLe] at same
  | word => simp [decode, sample, decodeFixed, ofLe, int16] at same
  | dword =>
      have read : decodeFixed 4 int32 ([2, 5] ++ rest) = some (.number 5, consumed) := same
      simp only [decodeFixed] at read
      split_ifs at read
      simp only [Option.some.injEq, Prod.mk.injEq, LuaValue.number.injEq] at read
      have low : ofLe (([2, 5] ++ rest).take 4) = 2 + 256 * (5 + 256 * ofLe (rest.take 2)) := by
        simp [ofLe]
      have equal : int32 (ofLe (([2, 5] ++ rest).take 4)) = 5 := by exact_mod_cast read.1
      rw [low, int32] at equal
      omega
  | string => simp [decode, sample, decodeString, decodeChars, ofLe] at same

theorem Scalar.string_apart {other : Scalar} (different : other ≠ string) :
    Apart string other := by
  refine ⟨_, _, string.exact_sample, ?_⟩
  intro rest consumed same
  cases other with
  | string => exact different rfl
  | number => simp [decode, sample, decodeNumber] at same
  | byte => simp [decode, sample, decodeFixed] at same
  | word => simp [decode, sample, decodeFixed] at same
  | dword =>
      have read : decodeFixed 4 int32 ([1] ++ rest) = some (.string [], consumed) := same
      simp only [decodeFixed] at read
      split_ifs at read
      cases read

theorem Scalar.word_apart_byte : Apart word byte := by
  refine ⟨[0, 1], .number 256, ?_, ?_⟩
  · intro rest
    simp [decode, decodeFixed, ofLe, int16]
  · intro rest consumed same
    simp [decode, decodeFixed, ofLe] at same

theorem Scalar.dword_apart_byte : Apart dword byte := by
  refine ⟨[0, 0, 1, 0], .number 65536, ?_, ?_⟩
  · intro rest
    simp [decode, decodeFixed, ofLe, int32]
  · intro rest consumed same
    simp [decode, decodeFixed, ofLe] at same

theorem Scalar.dword_apart_word : Apart dword word := by
  refine ⟨[0, 0, 1, 0], .number 65536, ?_, ?_⟩
  · intro rest
    simp [decode, decodeFixed, ofLe, int32]
  · intro rest consumed same
    simp [decode, decodeFixed, ofLe, int16] at same

theorem Scalar.apart : (kind other : Scalar) → kind ≠ other → Apart kind other ∨ Apart other kind
  | number, _, different => .inl (number_apart different.symm)
  | _, number, different => .inr (number_apart different)
  | string, _, different => .inl (string_apart different.symm)
  | _, string, different => .inr (string_apart different)
  | byte, byte, different => absurd rfl different
  | byte, word, _ => .inr word_apart_byte
  | byte, dword, _ => .inr dword_apart_byte
  | word, byte, _ => .inl word_apart_byte
  | word, word, different => absurd rfl different
  | word, dword, _ => .inr dword_apart_word
  | dword, byte, _ => .inl dword_apart_byte
  | dword, word, _ => .inl dword_apart_word
  | dword, dword, different => absurd rfl different

theorem not_agree_of_apart {key : LuaKey} {kind other : Scalar} {left right : List Token}
    (apart : kind.Apart other) :
    readTokens (.scalar key kind :: left) ≠ readTokens (.scalar key other :: right) := by
  intro agree
  rcases apart with ⟨front, value, exact, never⟩
  rcases exists_exact left with ⟨back, marks, behind⟩
  have here : (Token.scalar key kind).read.Exact front [.leaf key value] := by
    intro rest
    rw [Token.read, Decoder.mapped, exact rest]
    rfl
  have read := (here.append behind) []
  rw [← readTokens, agree, readTokens] at read
  rcases Decoder.append_eq_some.mp read with ⟨first, _, rest, _, found, -, same, -⟩
  rw [Token.read] at found
  rcases Decoder.mapped_eq_some.mp found with ⟨entry, decoded, rfl⟩
  simp only [List.cons_append, List.nil_append, List.cons.injEq, Mark.leaf.injEq] at same
  rw [same.1.2, List.append_assoc] at decoded
  exact never _ _ decoded

theorem kind_eq {key : LuaKey} {kind other : Scalar} {left right : List Token}
    (agree : readTokens (.scalar key kind :: left) = readTokens (.scalar key other :: right)) :
    kind = other := by
  by_contra different
  rcases Scalar.apart kind other different with apart | apart
  · exact not_agree_of_apart apart agree
  · exact not_agree_of_apart apart agree.symm

/-! ## Counted arrays -/

/-- The first key is one. -/
def Begins (tokens : List Token) : Prop :=
  start tokens = some (.leaf (.number 1) ()) ∨ start tokens = some (.opening (.number 1))

theorem Begins.start_ne_none {tokens : List Token} (begins : Begins tokens) :
    start tokens ≠ none := by
  rcases begins with leaf | opening
  · simp [leaf]
  · simp [opening]

theorem Begins.start_ne_closing {tokens : List Token} (begins : Begins tokens) :
    start tokens ≠ some .closing := by
  rcases begins with leaf | opening
  · simp [leaf]
  · simp [opening]

theorem relabel_of_begins {tokens : List Token} (begins : Begins tokens) {buf : Bytes}
    {marks : List (Mark LuaValue)} {consumed : ℕ}
    (read : readTokens tokens buf = some (marks, consumed)) :
    Mark.relabel (.number 1) marks = marks := by
  have first := start_of_read read
  rcases marks with _ | ⟨mark, marks⟩
  · rfl
  · rcases begins with leaf | opening
    · rw [leaf] at first
      cases mark <;> simp_all [Mark.erase, Mark.relabel]
    · rw [opening] at first
      cases mark <;> simp_all [Mark.erase, Mark.relabel]

/-- A count of one is followed by the element. -/
theorem readTokens_counted_one (key : LuaKey) {element : List Token} (begins : Begins element)
    (tokens : List Token) (rest : Bytes) :
    readTokens (.counted key element :: tokens) (1 :: rest) =
      (readTokens (inBrackets key element ++ tokens) rest).map fun (marks, consumed) =>
        (marks, 1 + consumed) := by
  have once : readCounted (readTokens element) (1 :: rest) =
      (readTokens element rest).map fun (marks, consumed) => (marks, 1 + consumed) := by
    have one : ofLe ([1] : Bytes) = 1 := by decide
    rcases read : readTokens element rest with _ | ⟨marks, consumed⟩
    · simp [readCounted, one, readElements, Decoder.append, Decoder.mapped, read]
    · simp [readCounted, one, readElements, Decoder.append, Decoder.mapped, Decoder.give, read,
        relabel_of_begins begins read]
  rw [readTokens, Token.read, readTokens_append, readTokens_inBrackets]
  rcases read : readTokens element rest with _ | ⟨marks, consumed⟩
  · simp [bracketed, Decoder.append, Decoder.give, once, read]
  · have shifted : (1 :: rest).drop (1 + consumed) = rest.drop consumed := by
      rw [Nat.add_comm, List.drop_succ_cons]
    rcases behind : readTokens tokens (rest.drop consumed) with _ | ⟨others, later⟩
    · simp [bracketed, Decoder.append, Decoder.give, once, read, shifted, behind]
    · simp [bracketed, Decoder.append, Decoder.give, once, read, shifted, behind, Nat.add_assoc]

theorem exact_counted_one {key : LuaKey} {element tokens : List Token} (begins : Begins element)
    {front : Bytes} {marks : List (Mark LuaValue)}
    (exact : (readTokens (inBrackets key element ++ tokens)).Exact front marks) :
    (readTokens (.counted key element :: tokens)).Exact (1 :: front) marks := by
  intro rest
  rw [List.cons_append, readTokens_counted_one key begins, exact rest, Option.map_some,
    List.length_cons, Nat.add_comm]

theorem counted_agree {key : LuaKey} {element other left right : List Token}
    (begins : Begins element) (begins' : Begins other)
    (agree : readTokens (.counted key element :: left) =
      readTokens (.counted key other :: right)) :
    readTokens left = readTokens right ∧
      readTokens (inBrackets key element ++ left) = readTokens (inBrackets key other ++ right) := by
  constructor
  · exact Decoder.append_cancel (exact_counted_zero key element) (exact_counted_zero key other)
      agree
  · funext rest
    have here := congrFun agree (1 :: rest)
    rw [readTokens_counted_one key begins, readTokens_counted_one key begins'] at here
    apply Option.map_injective _ here
    rintro ⟨marks, consumed⟩ ⟨others, later⟩ equal
    simp only [Prod.mk.injEq, Nat.add_left_cancel_iff] at equal
    exact Prod.ext equal.1 equal.2

theorem start_append {front : List Token} (begins : Begins front) (back : List Token) :
    start (front ++ back) = start front := by
  have some := begins.start_ne_none
  clear begins
  induction front with
  | nil => exact absurd rfl some
  | cons token front ih =>
      cases token with
      | zero => exact ih some
      | scalar key kind => rfl
      | opening key => rfl
      | closing => rfl
      | counted key element => rfl

/-- What follows the bracket is closed at once or not, while an array may be empty or not. -/
theorem opening_ne_counted {zeros others : ℕ} {key : LuaKey} {left element right : List Token}
    (begins : Begins element) :
    readBehind zeros (.opening key :: left) ≠
      readBehind others (.counted key element :: right) := by
  intro agree
  rw [readBehind_opening] at agree
  have second {buf : Bytes} {mark : Mark LuaValue} {marks : List (Mark LuaValue)} {consumed : ℕ}
      (read : readBehind others (.counted key element :: right) buf =
        some (.opening key :: mark :: marks, consumed)) : some mark.erase = start left := by
    rw [← agree] at read
    rcases Decoder.append_eq_some.mp read with ⟨_, _, back, _, ⟨⟩, behind, same, -⟩
    have first := start_of_readBehind behind
    simp only [List.cons_append, List.nil_append, List.cons.injEq, true_and] at same
    rw [same] at first
    exact first
  rcases exists_exact right with ⟨back, rest, behind⟩
  have empty :=
    ((exact_skipZeros others).append ((exact_counted_zero key element).append behind)) []
  have closed : some Mark.closing = start left := second empty
  rcases exists_exact (element ++ ([.closing] ++ right)) with ⟨front, marks, inside⟩
  have split : readTokens (inBrackets key element ++ right) =
      (Decoder.give [.opening key]).append (readTokens (element ++ ([.closing] ++ right))) := by
    rw [inBrackets, List.cons_append, readTokens, List.append_assoc]
    rfl
  have whole := (Decoder.exact_give [.opening key]).append inside
  rw [← split] at whole
  have read := ((exact_skipZeros others).append (exact_counted_one begins whole)) []
  have first := start_of_read (inside [])
  rw [start_append begins] at first
  rcases marks with _ | ⟨mark, marks⟩
  · exact begins.start_ne_none first.symm
  · have same := second read
    rw [List.head?_cons, Option.map_some, same, ← closed] at first
    exact begins.start_ne_closing first.symm

/-! ## The comparison -/

mutual

/-- The elements of all arrays stand under the key one. -/
def Token.Sound : Token → Prop
  | .scalar _ _ => True
  | .opening _ => True
  | .closing => True
  | .zero => True
  | .counted _ element => Begins element ∧ AllSound element

def AllSound : List Token → Prop
  | [] => True
  | token :: rest => token.Sound ∧ AllSound rest

end

theorem allSound_append {front back : List Token} :
    AllSound (front ++ back) ↔ AllSound front ∧ AllSound back := by
  induction front with
  | nil => simp [AllSound]
  | cons token front ih => simp [AllSound, ih, and_assoc]

theorem allSound_inBrackets {key : LuaKey} {inner rest : List Token} :
    AllSound (inBrackets key inner ++ rest) ↔ AllSound inner ∧ AllSound rest := by
  simp [inBrackets, AllSound, allSound_append, Token.Sound]

theorem exact_leading_scalar (key : LuaKey) (kind : Scalar) (tokens : List Token) :
    ∃ front marks, (readTokens (.scalar key kind :: tokens)).Exact front marks ∧
      front.head? ≠ some 0 := by
  rcases exists_exact tokens with ⟨back, rest, behind⟩
  refine ⟨_, _, (exact_scalar key kind).append behind, ?_⟩
  cases kind <;> simp [Scalar.sample]

theorem exact_leading_counted (key : LuaKey) {element : List Token} (begins : Begins element)
    (tokens : List Token) :
    ∃ front marks, (readTokens (.counted key element :: tokens)).Exact front marks ∧
      front.head? ≠ some 0 := by
  rcases exists_exact (inBrackets key element ++ tokens) with ⟨front, marks, exact⟩
  exact ⟨1 :: front, marks, exact_counted_one begins exact, by simp⟩

/--
Two layouts behind zeros are compared token by token: zeros in front are counted, and what is
smaller has been compared before.
-/
theorem compare {motive : ℕ → List Token → ℕ → List Token → Prop}
    (shiftLeft : ∀ zeros left others right, motive (zeros + 1) left others right →
      motive zeros (.zero :: left) others right)
    (shiftRight : ∀ zeros left others right, motive zeros left (others + 1) right →
      motive zeros left others (.zero :: right))
    (lead : ∀ zeros left others right, left.head? ≠ some .zero → right.head? ≠ some .zero →
      (∀ fewer front less back,
        tokensSize front + tokensSize back < tokensSize left + tokensSize right →
          motive fewer front less back) → motive zeros left others right)
    (zeros : ℕ) (left : List Token) (others : ℕ) (right : List Token) :
    motive zeros left others right := by
  induction bound : tokensSize left + tokensSize right using Nat.strong_induction_on
    generalizing zeros others left right with
  | _ bound ih =>
  by_cases leading : left.head? = some .zero
  · rcases left with _ | ⟨token, left⟩
    · cases leading
    · cases leading
      apply shiftLeft
      apply ih _ _ _ _ _ _ rfl
      simp [tokensSize, Token.size] at bound
      omega
  · by_cases leading' : right.head? = some .zero
    · rcases right with _ | ⟨token, right⟩
      · cases leading'
      · cases leading'
        apply shiftRight
        apply ih _ _ _ _ _ _ rfl
        simp [tokensSize, Token.size] at bound
        omega
    · apply lead zeros left others right leading leading'
      intro fewer front less back smaller
      exact ih _ (by omega) fewer front less back rfl

/-- Layouts that read the same have the same items and the same shape. -/
theorem items_shape_of_agree (zeros : ℕ) (left : List Token) (others : ℕ) (right : List Token) :
    AllSound left → AllSound right → readBehind zeros left = readBehind others right →
      List.replicate zeros .zero ++ items left = List.replicate others .zero ++ items right ∧
        shape left = shape right := by
  induction zeros, left, others, right using compare with
  | shiftLeft zeros left others right ih =>
      intro sound sound' agree
      rw [readBehind_zero] at agree
      have rest := ih sound.2 sound' agree
      rw [List.replicate_succ', List.append_assoc] at rest
      exact rest
  | shiftRight zeros left others right ih =>
      intro sound sound' agree
      rw [readBehind_zero] at agree
      have rest := ih sound sound'.2 agree
      rw [List.replicate_succ', List.append_assoc] at rest
      exact rest
  | lead zeros left others right leading leading' ih =>
      intro sound sound' agree
      have head := head_of_start leading'
      rw [← start_eq agree] at head
      rcases left with _ | ⟨token, left⟩
      · obtain rfl : right = [] := head
        have empty : (readTokens []).Exact [] [] := Decoder.exact_give []
        rcases zeros_cancel empty (by simp) empty (by simp) agree with ⟨rfl, -⟩
        exact ⟨rfl, rfl⟩
      · cases token with
        | zero => exact absurd rfl leading
        | scalar key kind =>
            rcases head with ⟨other, right, rfl⟩
            rcases exact_leading_scalar key kind left with ⟨_, _, exact, nonzero⟩
            rcases exact_leading_scalar key other right with ⟨_, _, exact', nonzero'⟩
            rcases zeros_cancel exact nonzero exact' nonzero' agree with ⟨rfl, same⟩
            obtain rfl := kind_eq same
            have tail := Decoder.append_cancel (exact_scalar key kind) (exact_scalar key kind) same
            have rest := ih 0 left 0 right (by simp [tokensSize, Token.size]; omega) sound.2
              sound'.2 (congrArg (skipZeros 0).append tail)
            simpa [items, shape, Token.items, Token.shape] using rest
        | opening key =>
            rcases head with ⟨right, rfl⟩ | ⟨element, right, rfl⟩
            · rw [readBehind_opening, readBehind_opening] at agree
              have tail := Decoder.append_cancel (Decoder.exact_give _) (Decoder.exact_give _) agree
              have rest := ih zeros left others right (by simp [tokensSize, Token.size]; omega)
                sound.2 sound'.2 tail
              simpa [items, shape, Token.items, Token.shape] using rest
            · exact absurd agree (opening_ne_counted sound'.1.1)
        | closing =>
            rcases head with ⟨right, rfl⟩
            rw [readBehind_closing, readBehind_closing] at agree
            have tail := Decoder.append_cancel (Decoder.exact_give _) (Decoder.exact_give _) agree
            have rest := ih zeros left others right (by simp [tokensSize, Token.size]; omega)
              sound.2 sound'.2 tail
            simpa [items, shape, Token.items, Token.shape] using rest
        | counted key element =>
            rcases head with ⟨right, rfl⟩ | ⟨other, right, rfl⟩
            · exact absurd agree.symm (opening_ne_counted sound.1.1)
            · rcases exact_leading_counted key sound.1.1 left with ⟨_, _, exact, nonzero⟩
              rcases exact_leading_counted key sound'.1.1 right with ⟨_, _, exact', nonzero'⟩
              rcases zeros_cancel exact nonzero exact' nonzero' agree with ⟨rfl, same⟩
              rcases counted_agree sound.1.1 sound'.1.1 same with ⟨tail, inside⟩
              have rest := ih 0 left 0 right (by simp [tokensSize, Token.size]; omega) sound.2
                sound'.2 (congrArg (skipZeros 0).append tail)
              have whole := ih 0 (inBrackets key element ++ left) 0 (inBrackets key other ++ right)
                (by
                  simp [inBrackets, tokensSize, tokensSize_append, Token.size]
                  omega)
                (allSound_inBrackets.mpr ⟨sound.1.2, sound.2⟩)
                (allSound_inBrackets.mpr ⟨sound'.1.2, sound'.2⟩)
                (congrArg (skipZeros 0).append inside)
              simp only [List.replicate_zero, List.nil_append] at rest
              simp [inBrackets, items, shape, items_append, shape_append, Token.items,
                Token.shape, rest] at whole
              simp [items, shape, Token.items, Token.shape, whole, rest]

theorem replicate_zero_cancel {count other : ℕ} {first second : Item} {front back : List Item}
    (nonzero : first ≠ .zero) (nonzero' : second ≠ .zero)
    (same : List.replicate count .zero ++ first :: front =
      List.replicate other .zero ++ second :: back) :
    count = other ∧ first = second ∧ front = back := by
  induction count generalizing other with
  | zero =>
      cases other with
      | zero => simpa using same
      | succ other =>
          rw [List.replicate_succ, List.cons_append] at same
          exact absurd (List.cons.inj same).1 nonzero
  | succ count ih =>
      cases other with
      | zero =>
          rw [List.replicate_succ, List.cons_append] at same
          exact absurd (List.cons.inj same).1.symm nonzero'
      | succ other =>
          rw [List.replicate_succ, List.replicate_succ, List.cons_append, List.cons_append] at same
          rcases ih (List.cons.inj same).2 with ⟨rfl, rest⟩
          exact ⟨rfl, rest⟩

/-- Items and shape determine what a layout reads. -/
theorem agree_of_items_shape (zeros : ℕ) (left : List Token) (others : ℕ) (right : List Token) :
    List.replicate zeros .zero ++ items left = List.replicate others .zero ++ items right →
      shape left = shape right → readBehind zeros left = readBehind others right := by
  induction zeros, left, others, right using compare with
  | shiftLeft zeros left others right ih =>
      intro sameItems sameShape
      rw [readBehind_zero]
      apply ih _ sameShape
      rw [List.replicate_succ', List.append_assoc]
      exact sameItems
  | shiftRight zeros left others right ih =>
      intro sameItems sameShape
      rw [readBehind_zero]
      apply ih _ sameShape
      rw [List.replicate_succ', List.append_assoc]
      exact sameItems
  | lead zeros left others right leading leading' ih =>
      intro sameItems sameShape
      rcases left with _ | ⟨token, left⟩
      · rcases right with _ | ⟨other, right⟩
        · simp [items] at sameItems
          rw [sameItems]
        · cases other <;> simp [shape, Token.shape] at sameShape leading'
      · rcases right with _ | ⟨other, right⟩
        · cases token <;> simp [shape, Token.shape] at sameShape leading
        · cases token with
          | zero => exact absurd rfl leading
          | scalar key kind =>
              cases other <;> simp [shape, Token.shape] at sameShape leading'
              rcases sameShape with ⟨⟨rfl, rfl⟩, sameShape⟩
              rcases replicate_zero_cancel (by simp) (by simp) sameItems with ⟨rfl, -, rest⟩
              have tail := ih 0 left 0 right (by simp [tokensSize, Token.size]; omega) rest
                sameShape
              rw [readBehind_none, readBehind_none] at tail
              rw [readBehind, readBehind, readTokens, readTokens, tail]
          | opening key =>
              cases other <;> simp [shape, Token.shape] at sameShape leading'
              rcases sameShape with ⟨rfl, sameShape⟩
              rw [readBehind_opening, readBehind_opening]
              rw [ih zeros left others right (by simp [tokensSize, Token.size]; omega) sameItems
                sameShape]
          | closing =>
              cases other <;> simp [shape, Token.shape] at sameShape leading'
              rw [readBehind_closing, readBehind_closing]
              rw [ih zeros left others right (by simp [tokensSize, Token.size]; omega) sameItems
                sameShape]
          | counted key element =>
              cases other <;> simp [shape, Token.shape] at sameShape leading'
              rcases sameShape with ⟨⟨rfl, sameElement⟩, sameShape⟩
              rcases replicate_zero_cancel (by simp) (by simp) sameItems with ⟨rfl, inside, rest⟩
              have tail := ih 0 left 0 right (by simp [tokensSize, Token.size]; omega) rest
                sameShape
              have elements := ih 0 element 0 _ (by simp [tokensSize, Token.size]; omega)
                (Item.counted.inj inside) sameElement
              rw [readBehind_none, readBehind_none] at tail elements
              rw [readBehind, readBehind, readTokens, readTokens, Token.read, Token.read, tail,
                elements]

/-- Two layouts read the same exactly if they have the same items and the same shape. -/
theorem readTokens_eq_iff {left right : List Token} (sound : AllSound left)
    (sound' : AllSound right) :
    readTokens left = readTokens right ↔ items left = items right ∧ shape left = shape right := by
  constructor
  · intro agree
    have same := items_shape_of_agree 0 left 0 right sound sound' (by
      rw [readBehind_none, readBehind_none, agree])
    simpa using same
  · rintro ⟨sameItems, sameShape⟩
    have agree := agree_of_items_shape 0 left 0 right (by rw [sameItems]) sameShape
    rwa [readBehind_none, readBehind_none] at agree

/-! ## Layouts of types -/

theorem allSound_of_append {front back : Option (List Token)} {tokens : List Token}
    (joined : Option.map₂ (· ++ ·) front back = some tokens)
    (sound : ∀ tokens, front = some tokens → AllSound tokens)
    (sound' : ∀ tokens, back = some tokens → AllSound tokens) : AllSound tokens := by
  rcases Option.map₂_eq_some_iff.mp joined with ⟨first, second, here, behind, rfl⟩
  exact allSound_append.mpr ⟨sound first here, sound' second behind⟩

theorem allSound_repeated {layoutAt : LuaKey → Option (List Token)}
    (sound : ∀ key tokens, layoutAt key = some tokens → AllSound tokens) (count i : ℕ) :
    ∀ tokens, repeated layoutAt count i = some tokens → AllSound tokens := by
  induction count generalizing i with
  | zero =>
      rintro tokens ⟨⟩
      trivial
  | succ count ih =>
      intro tokens joined
      exact allSound_of_append joined (sound _) (ih (i + 1))

theorem allSound_bracketed {key : LuaKey} {inner : List Token} (sound : AllSound inner) :
    AllSound (inBrackets key inner) := by
  have nothing : AllSound [] := trivial
  have whole : AllSound (inBrackets key inner ++ []) := allSound_inBrackets.mpr ⟨sound, nothing⟩
  rwa [List.append_nil] at whole

namespace ArgType

mutual

theorem allSound_layout : (type : ArgType) → (key : LuaKey) → (tokens : List Token) →
    type.layout key = some tokens →
    AllSound tokens ∧ (start tokens = some (.leaf key ()) ∨ start tokens = some (.opening key))
  | .number, _, _, rfl => ⟨⟨trivial, trivial⟩, .inl rfl⟩
  | .byte, _, _, rfl => ⟨⟨trivial, trivial⟩, .inl rfl⟩
  | .word, _, _, rfl => ⟨⟨trivial, trivial⟩, .inl rfl⟩
  | .dword, _, _, rfl => ⟨⟨trivial, trivial⟩, .inl rfl⟩
  | .string, _, _, rfl => ⟨⟨trivial, trivial⟩, .inl rfl⟩
  | .array element size, key, tokens, found => by
      rw [layout] at found
      split_ifs at found with counted
      · rcases inside : element.layout (.number 1) with _ | inner
        · rw [inside] at found
          cases found
          exact ⟨allSound_bracketed ⟨trivial, trivial⟩, .inr rfl⟩
        · rw [inside] at found
          cases found
          rcases allSound_layout element _ _ inside with ⟨sound, begins⟩
          exact ⟨⟨⟨begins, sound⟩, trivial⟩, .inr rfl⟩
      · rcases Option.map_eq_some_iff.mp found with ⟨inner, joined, rfl⟩
        have sound := allSound_repeated (fun other tokens found =>
          (allSound_layout element other tokens found).1) size 0 inner joined
        exact ⟨allSound_bracketed sound, .inr rfl⟩
  | .table fields, key, tokens, found => by
      rw [layout] at found
      rcases Option.bind_eq_some_iff.mp found with ⟨inner, inside, found⟩
      split_ifs at found
      cases found
      exact ⟨allSound_bracketed (allSound_fieldsLayout fields inner inside), .inr rfl⟩

theorem allSound_fieldsLayout : (fields : TableShape ArgType) → (tokens : List Token) →
    fieldsLayout fields = some tokens → AllSound tokens
  | .nil, _, rfl => trivial
  | .value key type rest, tokens, found =>
      allSound_of_append found (fun tokens found => (allSound_layout type key tokens found).1)
        (allSound_fieldsLayout rest)
  | .sub key fields rest, tokens, found => by
      rw [fieldsLayout] at found
      apply allSound_of_append found _ (allSound_fieldsLayout rest)
      intro tokens found
      rcases Option.map_eq_some_iff.mp found with ⟨inner, inside, rfl⟩
      exact allSound_bracketed (allSound_fieldsLayout fields inner inside)

end

end ArgType

/-- Where one layout is missing, nothing is read, and something is read with every layout. -/
theorem readLayout_eq_iff {left right : Option (List Token)}
    (sound : ∀ tokens, left = some tokens → AllSound tokens)
    (sound' : ∀ tokens, right = some tokens → AllSound tokens) :
    readLayout left = readLayout right ↔
      left.map items = right.map items ∧ left.map shape = right.map shape := by
  have reads (tokens : List Token) : readTokens tokens ≠ fun _ => none := by
    intro never
    rcases exists_exact tokens with ⟨front, marks, exact⟩
    have read := exact []
    rw [never] at read
    cases read
  rcases left with _ | left
  · rcases right with _ | right
    · simp
    · simp [readLayout, (reads right).symm]
  · rcases right with _ | right
    · simp [readLayout, reads left]
    · simpa [readLayout] using readTokens_eq_iff (sound left rfl) (sound' right rfl)

end SimpleModule
