import SimpleModule.Protocol.Codec

/-!
# Encoding

The formats pack any value that they find on the stack of Lua.  `ArgType.encoding` is what
they write for it if the buffer is long enough, as a function of the value alone; it says
also why there is no encoding.  The main result is that every format refines its encoder,
whatever is on the stack and however long the buffer is: it writes the encoding if that
fits and gives up otherwise.  It stays inside the buffer in both cases.
-/

namespace SimpleModule

open Octets Exits

/--
Why a value has no encoding: it is too large for its type, it is not of its type, or the
length of a string is beyond the range of `int`.
-/
inductive Unencodable
  | refused
  | mistyped
  | overflow
  deriving DecidableEq, Repr

/-- What is written for a value. -/
abbrev Encoding := Except Unencodable Bytes

namespace Encoding

/-- One encoding behind another. -/
def append (first second : Encoding) : Encoding := do
  let bytes ← first
  let more ← second
  return bytes ++ more

theorem append_eq_ok {first second : Encoding} {bytes : Bytes} :
    first.append second = .ok bytes ↔
      ∃ front back, first = .ok front ∧ second = .ok back ∧ bytes = front ++ back := by
  cases first with
  | error reason => simp [append, bind, Except.bind]
  | ok front =>
      cases second with
      | error reason => simp [append, bind, Except.bind]
      | ok back =>
          simp only [append, bind, Except.bind, pure, Except.pure, Except.ok.injEq]
          constructor
          · intro same
            exact ⟨front, back, rfl, rfl, same.symm⟩
          · rintro ⟨_, _, rfl, rfl, same⟩
            exact same.symm

theorem append_eq_error {first second : Encoding} {reason : Unencodable}
    (failed : first.append second = .error reason) :
    first = .error reason ∨ second = .error reason := by
  cases first with
  | error other => exact .inl failed
  | ok front =>
      cases second with
      | error other => exact .inr failed
      | ok back => cases failed

theorem append_assoc (first second third : Encoding) :
    (first.append second).append third = first.append (second.append third) := by
  cases first with
  | error reason => rfl
  | ok front =>
      cases second with
      | error reason => rfl
      | ok middle =>
          cases third with
          | error reason => rfl
          | ok back => exact congrArg Except.ok (List.append_assoc front middle back)

theorem nil_append (encoding : Encoding) : Encoding.append (.ok []) encoding = encoding := by
  cases encoding with
  | error reason => rfl
  | ok bytes => rfl

theorem append_nil (encoding : Encoding) : encoding.append (.ok []) = encoding := by
  cases encoding with
  | error reason => rfl
  | ok bytes => exact congrArg Except.ok (List.append_nil bytes)

end Encoding

namespace ArgType

/-! ## What is written for a value -/

/-- The encoding of a number, given that of an integer. -/
def encodingInt (encodeInt : ℤ → Bytes) : LuaValue → Encoding
  | .number value => .ok (encodeInt (number2int value))
  | _ => .error .mistyped

/-- A string has at most 65534 bytes. -/
def encodingString (numerals : Numerals) (value : LuaValue) : Encoding :=
  match value.toBytes numerals with
  | none => .error .mistyped
  | some text =>
      if text.length ≤ 65534 then .ok (encodeString text)
      else if text.length < 2 ^ 31 - 1 then .error .refused
      else .error .overflow

/-- As many elements as counted, from position `i` on. -/
def encodingElements (encodingBase : LuaValue → Encoding) (value : LuaValue) :
    (count i : ℕ) → Encoding
  | 0, _ => .ok []
  | count + 1, i =>
      (encodingBase (value.index (i + 1))).append
        (encodingElements encodingBase value count (i + 1))

/-- The encoding of an array, whose length is an `int`. -/
def encodingArray (encodingBase : LuaValue → Encoding) (size : ℕ) (value : LuaValue) : Encoding :=
  if value.isTable then
    if size = 0 then
      if int32 value.objlen > 512 then .error .refused
      else
        Encoding.append (.ok (le 1 (unsigned32 (int32 value.objlen))))
          (encodingElements encodingBase value (int32 value.objlen).toNat 0)
    else if size > 512 then .error .refused
    else encodingElements encodingBase value size 0
  else .error .mistyped

/-- The encoding of a table, which is refused if it has no leaves. -/
def encodingTable (encodingFields : Encoding) (value : LuaValue) : Encoding :=
  if value.isTable then do
    let bytes ← encodingFields
    if bytes = [] then .error .refused else return bytes
  else .error .mistyped

mutual

/-- What a format writes for a value. -/
def encoding (numerals : Numerals) : ArgType → LuaValue → Encoding
  | number, value => encodingInt encodeNumber value
  | byte, value => encodingInt (fun number => le 1 (unsigned32 number)) value
  | word, value => encodingInt (fun number => le 2 (unsigned32 number)) value
  | dword, value => encodingInt (fun number => le 4 (unsigned32 number)) value
  | string, value => encodingString numerals value
  | array element size, value =>
      encodingArray (fun entry => element.encoding numerals entry) size value
  | table fields, value => encodingTable (encodingFields numerals fields value) value

/-- The leaves of a table in the order of its description. -/
def encodingFields (numerals : Numerals) : TableShape ArgType → LuaValue → Encoding
  | .nil, _ => .ok []
  | .value key type rest, value =>
      (type.encoding numerals (value.field key)).append (encodingFields numerals rest value)
  | .sub key fields rest, value =>
      if (value.field key).isTable then
        (encodingFields numerals fields (value.field key)).append
          (encodingFields numerals rest value)
      else .error .mistyped

end

theorem encodingInt_ok {encodeInt : ℤ → Bytes} {value : LuaValue} {bytes : Bytes}
    (encoded : encodingInt encodeInt value = .ok bytes) :
    ∃ amount, value = .number amount ∧ bytes = encodeInt (number2int amount) := by
  cases value with
  | number amount => exact ⟨amount, rfl, (Except.ok.inj encoded).symm⟩
  | nil => cases encoded
  | boolean truth => cases encoded
  | string text => cases encoded
  | function ref => cases encoded
  | packClosure self => cases encoded
  | table entries => cases encoded

theorem encodingTable_ok {fields : Encoding} {value : LuaValue} {bytes : Bytes} :
    encodingTable fields value = .ok bytes ↔
      value.isTable = true ∧ fields = .ok bytes ∧ bytes ≠ [] := by
  unfold encodingTable
  by_cases isTable : value.isTable = true
  · rw [if_pos isTable]
    cases fields with
    | error reason => simp [bind, Except.bind]
    | ok contents =>
        simp only [bind, Except.bind]
        split_ifs with empty
        · subst empty
          constructor
          · intro absurdity
            cases absurdity
          · rintro ⟨-, same, present⟩
            exact absurd (Except.ok.inj same).symm present
        · constructor
          · rintro ⟨⟩
            exact ⟨isTable, rfl, empty⟩
          · rintro ⟨-, same, -⟩
            exact same
  · simp [isTable]

/-- What is written is never empty, since a length of zero is the sign of a failure. -/
theorem encoding_ne_nil {numerals : Numerals} : (type : ArgType) → {value : LuaValue} →
    {bytes : Bytes} → type.encoding numerals value = .ok bytes → bytes ≠ []
  | number, value, bytes, encoded => by
      rcases encodingInt_ok encoded with ⟨amount, -, rfl⟩
      simp [encodeNumber]
  | byte, value, bytes, encoded => by
      rcases encodingInt_ok encoded with ⟨amount, -, rfl⟩
      simp [le]
  | word, value, bytes, encoded => by
      rcases encodingInt_ok encoded with ⟨amount, -, rfl⟩
      simp [le]
  | dword, value, bytes, encoded => by
      rcases encodingInt_ok encoded with ⟨amount, -, rfl⟩
      simp [le]
  | string, value, bytes, encoded => by
      simp only [encoding, encodingString] at encoded
      rcases converted : value.toBytes numerals with _ | text
      · rw [converted] at encoded
        cases encoded
      · simp only [converted] at encoded
        split_ifs at encoded
        cases encoded
        unfold encodeString
        split_ifs
        · simp [le]
        · simp
  | array element size, value, bytes, encoded => by
      simp only [encoding, encodingArray] at encoded
      split_ifs at encoded with isTable counted long long
      · rcases Encoding.append_eq_ok.mp encoded with ⟨front, back, first, -, rfl⟩
        cases first
        simp [le]
      · rcases Nat.exists_eq_succ_of_ne_zero counted with ⟨count, rfl⟩
        rcases Encoding.append_eq_ok.mp encoded with ⟨front, back, first, -, rfl⟩
        have nonempty := encoding_ne_nil element first
        simp [nonempty]
  | table fields, value, bytes, encoded => (encodingTable_ok.mp encoded).2.2

/-! ## The values of a type -/

mutual

/-- The values that no format of the type takes for another kind of value. -/
def OfType (numerals : Numerals) : ArgType → LuaValue → Prop
  | number, value => ∃ amount, value = .number amount
  | byte, value => ∃ amount, value = .number amount
  | word, value => ∃ amount, value = .number amount
  | dword, value => ∃ amount, value = .number amount
  | string, value => ∃ text, value.toBytes numerals = some text
  | array element size, value =>
      value.isTable = true ∧ ∀ position : ℕ, position < arrayCount size value →
        element.OfType numerals (value.index (position + 1))
  | table fields, value => value.isTable = true ∧ FieldsOfType numerals fields value

def FieldsOfType (numerals : Numerals) : TableShape ArgType → LuaValue → Prop
  | .nil, _ => True
  | .value key type rest, value =>
      type.OfType numerals (value.field key) ∧ FieldsOfType numerals rest value
  | .sub key fields rest, value =>
      (value.field key).isTable = true ∧ FieldsOfType numerals fields (value.field key) ∧
        FieldsOfType numerals rest value

end

mutual

/-- The strings that the type describes are shorter than the largest `int`. -/
def ShortStrings (numerals : Numerals) : ArgType → LuaValue → Prop
  | string, value => ∀ text, value.toBytes numerals = some text → text.length < 2 ^ 31 - 1
  | array element size, value =>
      ∀ position : ℕ, position < arrayCount size value →
        element.ShortStrings numerals (value.index (position + 1))
  | table fields, value => FieldsShortStrings numerals fields value
  | _, _ => True

def FieldsShortStrings (numerals : Numerals) : TableShape ArgType → LuaValue → Prop
  | .nil, _ => True
  | .value key type rest, value =>
      type.ShortStrings numerals (value.field key) ∧ FieldsShortStrings numerals rest value
  | .sub key fields rest, value =>
      FieldsShortStrings numerals fields (value.field key) ∧ FieldsShortStrings numerals rest value

end

section Failures

variable {encodingBase : LuaValue → Encoding} {value : LuaValue} {reason : Unencodable}

theorem encodingElements_error {count first : ℕ}
    (failed : encodingElements encodingBase value count first = .error reason) :
    ∃ position, position < first + count ∧
      encodingBase (value.index (position + 1)) = .error reason := by
  induction count generalizing first with
  | zero => cases failed
  | succ count ih =>
      rcases Encoding.append_eq_error failed with here | later
      · exact ⟨first, by omega, here⟩
      · rcases ih later with ⟨position, inside, found⟩
        exact ⟨position, by omega, found⟩

theorem encodingArray_error {size : ℕ}
    (failed : encodingArray encodingBase size value = .error reason) :
    reason = .refused ∨ (reason = .mistyped ∧ value.isTable = false) ∨
      ∃ position : ℕ, position < arrayCount size value ∧
        encodingBase (value.index (position + 1)) = .error reason := by
  have counted : (int32 value.objlen).toNat ≤ value.objlen := by
    simp only [int32]
    omega
  unfold encodingArray at failed
  split_ifs at failed with isTable variableSize long long
  · cases failed
    exact .inl rfl
  · rcases Encoding.append_eq_error failed with front | back
    · cases front
    · rcases encodingElements_error back with ⟨position, inside, found⟩
      refine .inr (.inr ⟨position, ?_, found⟩)
      rw [arrayCount, if_pos variableSize]
      omega
  · cases failed
    exact .inl rfl
  · rcases encodingElements_error failed with ⟨position, inside, found⟩
    refine .inr (.inr ⟨position, ?_, found⟩)
    rw [arrayCount, if_neg variableSize]
    omega
  · cases failed
    exact .inr (.inl ⟨rfl, by simpa using isTable⟩)

theorem encodingTable_error {fields : Encoding}
    (failed : encodingTable fields value = .error reason) :
    reason = .refused ∨ (reason = .mistyped ∧ value.isTable = false) ∨ fields = .error reason := by
  unfold encodingTable at failed
  split_ifs at failed with isTable
  · cases fields with
    | error other => exact .inr (.inr failed)
    | ok contents =>
        simp only [bind, Except.bind] at failed
        split_ifs at failed with empty
        · cases failed
          exact .inl rfl
        · cases failed
  · cases failed
    exact .inr (.inl ⟨rfl, by simpa using isTable⟩)

end Failures

mutual

/-- A value of a type is never taken for another kind of value. -/
theorem encoding_ne_mistyped {numerals : Numerals} : (type : ArgType) → {value : LuaValue} →
    type.OfType numerals value → type.encoding numerals value ≠ .error .mistyped
  | number, _, ⟨_, rfl⟩ => by simp [encoding, encodingInt]
  | byte, _, ⟨_, rfl⟩ => by simp [encoding, encodingInt]
  | word, _, ⟨_, rfl⟩ => by simp [encoding, encodingInt]
  | dword, _, ⟨_, rfl⟩ => by simp [encoding, encodingInt]
  | string, value, ⟨text, converted⟩ => by
      simp only [encoding, encodingString, converted]
      split_ifs
      all_goals simp
  | array element size, value, ⟨isTable, elements⟩ => by
      intro failed
      rcases encodingArray_error failed with absurdity | ⟨-, other⟩ | ⟨position, inside, found⟩
      · cases absurdity
      · rw [isTable] at other
        cases other
      · exact encoding_ne_mistyped element (elements position inside) found
  | table fields, value, ⟨isTable, contents⟩ => by
      intro failed
      rcases encodingTable_error failed with absurdity | ⟨-, other⟩ | found
      · cases absurdity
      · rw [isTable] at other
        cases other
      · exact encodingFields_ne_mistyped fields contents found

theorem encodingFields_ne_mistyped {numerals : Numerals} : (fields : TableShape ArgType) →
    {value : LuaValue} → FieldsOfType numerals fields value →
    encodingFields numerals fields value ≠ .error .mistyped
  | .nil, _, _ => by simp [encodingFields]
  | .value key type rest, value, contents => by
      intro failed
      rcases Encoding.append_eq_error failed with here | later
      · exact encoding_ne_mistyped type contents.1 here
      · exact encodingFields_ne_mistyped rest contents.2 later
  | .sub key fields rest, value, contents => by
      rw [encodingFields, if_pos contents.1]
      intro failed
      rcases Encoding.append_eq_error failed with here | later
      · exact encodingFields_ne_mistyped fields contents.2.1 here
      · exact encodingFields_ne_mistyped rest contents.2.2 later

end

mutual

theorem encoding_ne_overflow {numerals : Numerals} : (type : ArgType) → {value : LuaValue} →
    type.ShortStrings numerals value → type.encoding numerals value ≠ .error .overflow
  | number, value, _ => by cases value <;> simp [encoding, encodingInt]
  | byte, value, _ => by cases value <;> simp [encoding, encodingInt]
  | word, value, _ => by cases value <;> simp [encoding, encodingInt]
  | dword, value, _ => by cases value <;> simp [encoding, encodingInt]
  | string, value, short => by
      rcases converted : value.toBytes numerals with _ | text
      · simp [encoding, encodingString, converted]
      · have bounded := short text converted
        simp only [encoding, encodingString, converted]
        rw [if_pos bounded]
        split_ifs
        all_goals simp
  | array element size, value, elements => by
      intro failed
      rcases encodingArray_error failed with absurdity | ⟨absurdity, -⟩ | ⟨position, inside, found⟩
      · cases absurdity
      · cases absurdity
      · exact encoding_ne_overflow element (elements position inside) found
  | table fields, value, contents => by
      intro failed
      rcases encodingTable_error failed with absurdity | ⟨absurdity, -⟩ | found
      · cases absurdity
      · cases absurdity
      · exact encodingFields_ne_overflow fields contents found

theorem encodingFields_ne_overflow {numerals : Numerals} : (fields : TableShape ArgType) →
    {value : LuaValue} → FieldsShortStrings numerals fields value →
    encodingFields numerals fields value ≠ .error .overflow
  | .nil, _, _ => by simp [encodingFields]
  | .value key type rest, value, contents => by
      intro failed
      rcases Encoding.append_eq_error failed with here | later
      · exact encoding_ne_overflow type contents.1 here
      · exact encodingFields_ne_overflow rest contents.2 later
  | .sub key fields rest, value, contents => by
      intro failed
      rw [encodingFields] at failed
      split_ifs at failed with entered
      · rcases Encoding.append_eq_error failed with here | later
        · exact encodingFields_ne_overflow fields contents.1 here
        · exact encodingFields_ne_overflow rest contents.2 later
      · cases failed

end

end ArgType

/-! ## How packing ends -/

/-- What was written after `usedLen` bytes stays inside the buffer. -/
def Inside (state final : LuaState) (usedLen bufLen : ℤ) : Prop :=
  ∃ front : Bytes, final.out = state.out ++ front ∧
    (usedLen ≤ bufLen → usedLen + front.length ≤ bufLen)

theorem inside_same {state final : LuaState} (same : final.out = state.out)
    (usedLen bufLen : ℤ) : Inside state final usedLen bufLen :=
  ⟨[], by rw [same, List.append_nil], by simp⟩

/--
How a packing function ends after `usedLen` bytes: it writes the encoding, it gives up
because the encoding does not fit or does not exist, or it raises an error because a value
is not of its type.  Nothing is said about lengths that overflow.
-/
inductive Writes (program : LuaM ℤ) (state : LuaState) (after : List LuaValue)
    (usedLen bufLen : ℤ) : Encoding → Prop
  | written {bytes : Bytes} (fits : bytes ≠ [] → usedLen + bytes.length ≤ bufLen)
      (returns : program state =
        (.ret (usedLen + bytes.length), ⟨after, state.out ++ bytes, state.calls⟩)) :
      Writes program state after usedLen bufLen (.ok bytes)
  | gaveUp {encoding : Encoding} {final : LuaState}
      (short : ∀ bytes, encoding = .ok bytes → bytes ≠ [] ∧ bufLen < usedLen + bytes.length)
      (inside : Inside state final usedLen bufLen) (returns : program state = (.ret 0, final)) :
      Writes program state after usedLen bufLen encoding
  | raised {final : LuaState} (inside : Inside state final usedLen bufLen)
      (returns : program state = (.raise, final)) :
      Writes program state after usedLen bufLen (.error .mistyped)
  | overflow : Writes program state after usedLen bufLen (.error .overflow)

namespace Writes

variable {program : LuaM ℤ} {state : LuaState} {after : List LuaValue} {usedLen bufLen : ℤ}
  {encoding : Encoding}

/-- A program that goes on with another one after some bytes have been written. -/
theorem behind {rest : LuaM ℤ} {stack : List LuaValue} {front : Bytes} {more : Encoding}
    (body : program state = rest ⟨stack, state.out ++ front, state.calls⟩)
    (room : front ≠ [] → usedLen + front.length ≤ bufLen)
    (writes : Writes rest ⟨stack, state.out ++ front, state.calls⟩ after
      (usedLen + front.length) bufLen more) :
    Writes program state after usedLen bufLen (Encoding.append (.ok front) more) := by
  have reaches {final : LuaState} (inside : Inside ⟨stack, state.out ++ front, state.calls⟩ final
      (usedLen + front.length) bufLen) : Inside state final usedLen bufLen := by
    rcases inside with ⟨back, out, within⟩
    refine ⟨front ++ back, by rw [out, List.append_assoc], ?_⟩
    intro enough
    rw [List.length_append, Nat.cast_add, ← add_assoc]
    by_cases empty : front = []
    · subst empty
      exact within (by simpa using enough)
    · exact within (room empty)
  cases writes with
  | @written bytes fits returns =>
      apply written
      · intro nonempty
        rw [List.length_append, Nat.cast_add, ← add_assoc]
        by_cases last : bytes = []
        · subst last
          rw [List.append_nil] at nonempty
          simpa using room nonempty
        · exact fits last
      · rw [body, returns, List.length_append, Nat.cast_add, ← add_assoc, List.append_assoc]
  | gaveUp short inside returns =>
      apply gaveUp ?_ (reaches inside) (body.trans returns)
      intro bytes joined
      rcases Encoding.append_eq_ok.mp joined with ⟨_, back, first, second, rfl⟩
      cases first
      rcases short back second with ⟨nonempty, beyond⟩
      refine ⟨by simp [nonempty], ?_⟩
      rw [List.length_append, Nat.cast_add, ← add_assoc]
      exact beyond
  | raised inside returns => exact raised (reaches inside) (body.trans returns)
  | overflow => exact overflow

/-- A nested value and what comes after it. -/
theorem andThen {first : LuaM ℤ} {next : ℤ → LuaM ℤ} {value : LuaValue} {stack : List LuaValue}
    {more : Encoding} (top : ℤ)
    (head : Writes first state (value :: stack) 0 (bufLen - usedLen) encoding)
    (nonempty : ∀ bytes, encoding = .ok bytes → bytes ≠ [])
    (tail : ∀ bytes, encoding = .ok bytes → Writes (next (usedLen + bytes.length))
      ⟨stack, state.out ++ bytes, state.calls⟩ after (usedLen + bytes.length) bufLen more) :
    Writes (do
      let curUsed ← first
      FcallArg.afterPack top curUsed (next (usedLen + curUsed))) state after usedLen bufLen
      (encoding.append more) := by
  have reaches {final : LuaState} (inside : Inside state final 0 (bufLen - usedLen)) :
      Inside state final usedLen bufLen := by
    rcases inside with ⟨front, out, within⟩
    refine ⟨front, out, ?_⟩
    intro enough
    have bound := within (by omega)
    omega
  cases head with
  | @written bytes fits returns =>
      have present := nonempty bytes rfl
      have room := fits present
      have positive := List.length_pos_iff.mpr present
      rw [zero_add] at returns
      apply behind ?_ (fun _ => by omega) (tail bytes rfl)
      rw [Program.bind_of_ret returns, FcallArg.afterPack, if_neg (by omega)]
      simp [Program.bind_apply]
  | @gaveUp _ final short inside returns =>
      have dropped : Inside state { final with
          stack := final.stack.drop (final.stack.length - top.toNat) } usedLen bufLen :=
        reaches inside
      refine gaveUp ?_ dropped ?_
      · intro bytes joined
        rcases Encoding.append_eq_ok.mp joined with ⟨front, back, here, -, rfl⟩
        rcases short front here with ⟨present, beyond⟩
        refine ⟨by simp [present], ?_⟩
        rw [List.length_append, Nat.cast_add]
        omega
      · rw [Program.bind_of_ret returns, FcallArg.afterPack, if_pos rfl]
        rfl
  | raised inside returns =>
      apply raised (reaches inside)
      rw [Program.bind_apply, returns]
  | overflow => exact overflow

theorem of_eq {other : LuaM ℤ} {stack start : List LuaValue} {out : Bytes}
    {calls : List (LuaValue × List LuaValue)}
    (same : program ⟨stack, out, calls⟩ = other ⟨start, out, calls⟩)
    (writes : Writes other ⟨start, out, calls⟩ after usedLen bufLen encoding) :
    Writes program ⟨stack, out, calls⟩ after usedLen bufLen encoding := by
  cases writes with
  | written fits returns => exact written fits (same.trans returns)
  | gaveUp short inside returns => exact gaveUp short inside (same.trans returns)
  | raised inside returns => exact raised inside (same.trans returns)
  | overflow => exact overflow

/-- A result other than zero is the length of the encoding. -/
theorem of_ret {final : LuaState} {result : ℤ}
    (writes : Writes program state after usedLen bufLen encoding)
    (returns : program state = (.ret result, final)) (accepted : result ≠ 0)
    (bounded : encoding ≠ .error .overflow) :
    ∃ bytes, encoding = .ok bytes ∧ result = usedLen + bytes.length ∧
      final = ⟨after, state.out ++ bytes, state.calls⟩ := by
  cases writes with
  | written fits written =>
      rw [returns, Prod.mk.injEq, Exit.ret.injEq] at written
      exact ⟨_, rfl, written⟩
  | gaveUp short inside gaveUp =>
      rw [returns, Prod.mk.injEq, Exit.ret.injEq] at gaveUp
      exact absurd gaveUp.1 accepted
  | raised inside raised =>
      rw [returns, Prod.mk.injEq] at raised
      cases raised.1
  | overflow => exact absurd rfl bounded

/-- A function that returns the number of the bytes it writes, behind a check of the buffer. -/
theorem checkBuf {rest : LuaM ℤ} {bytes : Bytes} {dataLen : ℤ} (bufLen : ℤ)
    (measured : dataLen = bytes.length) (nonempty : bytes ≠ [])
    (writes : rest state = (.ret dataLen, ⟨after, state.out ++ bytes, state.calls⟩)) :
    Writes (FcallArg.checkBuf dataLen bufLen rest) state after 0 bufLen (.ok bytes) := by
  by_cases room : dataLen ≤ bufLen
  · apply written
    · intro _
      omega
    · rw [FcallArg.checkBuf_of_le room, writes, measured, zero_add]
  · apply gaveUp ?_ (inside_same rfl _ _) (FcallArg.checkBuf_of_gt (not_le.mp room) rest state)
    intro others same
    cases same
    exact ⟨nonempty, by omega⟩

end Writes

namespace FcallArg

open ArgType

/-! ## Numbers and strings -/

section Scalars

variable {dataIn : ℤ} {state : LuaState}

theorem writes_checknumber {rest : ℚ → LuaM ℤ} {encodeInt : ℤ → Bytes} {bufLen : ℤ}
    (writes : ∀ amount, Writes (rest amount) state state.stack 0 bufLen
      (.ok (encodeInt (number2int amount)))) :
    Writes (Lua.checknumber dataIn >>= rest) state state.stack 0 bufLen
      (encodingInt encodeInt (state.valueAt dataIn)) := by
  rcases given : state.valueAt dataIn with _ | truth | amount | text | ref | self | entries
  case number =>
    rw [encodingInt]
    exact (writes amount).of_eq (Program.bind_of_ret (Lua.checknumber_apply given))
  all_goals
    apply Writes.raised (inside_same rfl _ _)
    rw [Program.bind_apply, Lua.checknumber, Program.bind_apply, Lua.valueAt_apply, given]
    rfl

theorem isInt32_number2int (value : ℚ) : IsInt32 (number2int value) := by
  rw [number2int]
  split_ifs with range
  · exact range
  · decide

theorem unsigned32_abs {number : ℤ} (range : IsInt32 number) :
    unsigned32 (if number < 0 then -number else number) = number.natAbs := by
  simp only [IsInt32] at range
  simp only [unsigned32]
  split_ifs with negative
  · omega
  · omega

theorem writes_packNumber (bufLen : ℤ) :
    Writes (packNumber dataIn bufLen) state state.stack 0 bufLen
      (encodingInt encodeNumber (state.valueAt dataIn)) := by
  apply writes_checknumber
  intro amount
  simp only [unsigned32_abs (isInt32_number2int amount)]
  apply Writes.checkBuf
  · simp [encodeNumber]
    omega
  · simp [encodeNumber]
  · simp [Program.bind_apply, encodeNumber]

theorem writes_packFixed {width : ℕ} (positive : 0 < width) (bufLen : ℤ) :
    Writes (packFixed width dataIn bufLen) state state.stack 0 bufLen
      (encodingInt (fun number => le width (unsigned32 number)) (state.valueAt dataIn)) := by
  apply writes_checknumber
  intro amount
  apply Writes.checkBuf
  · simp
  · apply List.ne_nil_of_length_pos
    rw [length_le]
    exact positive
  · simp [Program.bind_apply]

/-- The stack after the string at an index was read. -/
def stringStack (numerals : Numerals) (dataIn : ℤ) (state : LuaState) : List LuaValue :=
  match state.valueAt dataIn with
  | .number value => (state.setValueAt dataIn (.string (numerals.number2str value))).stack
  | _ => state.stack

theorem checklstring_eq (numerals : Numerals) (dataIn : ℤ) (state : LuaState) :
    Lua.checklstring numerals dataIn state =
      match (state.valueAt dataIn).toBytes numerals with
      | none => (.raise, state)
      | some text => (.ret text, { state with stack := stringStack numerals dataIn state }) := by
  simp only [Lua.checklstring, stringStack, Program.bind_apply, Lua.valueAt_apply]
  rcases state.valueAt dataIn with _ | truth | amount | text | ref | self | entries
  all_goals rfl

/-- The part of `pack` for strings behind the conversion. -/
theorem writes_packText {numerals : Numerals} {text : Bytes} (bufLen : ℤ)
    (converted : (state.valueAt dataIn).toBytes numerals = some text) :
    Writes (packString numerals dataIn bufLen) state (stringStack numerals dataIn state) 0 bufLen
      (encodingString numerals (state.valueAt dataIn)) := by
  have read := checklstring_eq numerals dataIn state
  rw [converted] at read
  simp only [encodingString, converted]
  split_ifs with encodable bounded
  · have strId : int32 (int32 text.length + 1) = text.length + 1 := by
      simp only [int32]
      omega
    have image : unsigned32 (text.length + 1) = text.length + 1 := by
      simp only [unsigned32]
      omega
    by_cases oneByte : text.length + 1 ≤ 0xff
    · have measured : int32 (text.length + 1) = text.length + 1 := by
        simp only [int32]
        omega
      have body : packString numerals dataIn bufLen state =
          checkBuf (text.length + 1) bufLen (do
            Lua.emit (le 1 (text.length + 1))
            Lua.emit text
            return (text.length + 1 : ℤ))
            ⟨stringStack numerals dataIn state, state.out, state.calls⟩ := by
        rw [packString, Program.bind_of_ret read]
        simp only [strId, image, measured]
        rw [if_pos (by omega)]
      apply Writes.of_eq body
      apply Writes.checkBuf
      · simp [encodeString, oneByte]
        omega
      · simp [encodeString, oneByte, le]
      · simp [Program.bind_apply, encodeString, oneByte]
    · have measured : int32 (text.length + 3) = text.length + 3 := by
        simp only [int32]
        omega
      have body : packString numerals dataIn bufLen state =
          checkBuf (text.length + 3) bufLen (do
            Lua.emit [0]
            Lua.emit (le 2 (text.length + 1))
            Lua.emit text
            return (text.length + 3 : ℤ))
            ⟨stringStack numerals dataIn state, state.out, state.calls⟩ := by
        rw [packString, Program.bind_of_ret read]
        simp only [strId, image, measured]
        rw [if_neg (by omega), if_pos (by omega)]
      apply Writes.of_eq body
      apply Writes.checkBuf
      · simp [encodeString, oneByte]
        omega
      · simp [encodeString, oneByte]
      · simp [Program.bind_apply, encodeString, oneByte]
  · have strId : int32 (int32 text.length + 1) = text.length + 1 := by
      simp only [int32]
      omega
    have body : packString numerals dataIn bufLen state =
        (.ret 0, ⟨stringStack numerals dataIn state, state.out, state.calls⟩) := by
      rw [packString, Program.bind_of_ret read]
      simp only [strId]
      rw [if_neg (by omega), if_neg (by omega)]
      rfl
    refine Writes.gaveUp ?_ ?_ body
    · intro bytes absurdity
      cases absurdity
    · exact inside_same rfl _ _
  · exact Writes.overflow

theorem writes_packString (numerals : Numerals) (bufLen : ℤ) :
    Writes (packString numerals dataIn bufLen) state (stringStack numerals dataIn state) 0 bufLen
      (encodingString numerals (state.valueAt dataIn)) := by
  rcases converted : (state.valueAt dataIn).toBytes numerals with _ | text
  · have read := checklstring_eq numerals dataIn state
    rw [converted] at read
    simp only [encodingString, converted]
    apply Writes.raised (inside_same rfl _ _)
    rw [packString, Program.bind_apply, read]
  · exact writes_packText bufLen converted

end Scalars

/-! ## Arrays -/

/-- A format that writes the value on the top of the stack, whatever is below it. -/
structure WritesTop (packBase : ℤ → ℤ → LuaM ℤ) (encodingBase : LuaValue → Encoding) : Prop where
  nonempty : ∀ value bytes, encodingBase value = .ok bytes → bytes ≠ []
  writes : ∀ (value : LuaValue) (rest : List LuaValue) (out : Bytes)
    (calls : List (LuaValue × List LuaValue)) (remaining : ℤ), ∃ converted,
      Writes (packBase (-1) remaining) ⟨value :: rest, out, calls⟩ (converted :: rest) 0 remaining
        (encodingBase value)

section Arrays

variable {packBase : ℤ → ℤ → LuaM ℤ} {encodingBase : LuaValue → Encoding}
  {dataIn bufLen : ℤ} {value : LuaValue}

theorem writes_packElements (base : WritesTop packBase encodingBase) (top : ℤ)
    (isTable : value.isTable = true) (count i : ℕ) (usedLen : ℤ) {state : LuaState}
    (given : state.valueAt dataIn = value) :
    Writes (packElements packBase top dataIn bufLen count (i + 1) usedLen) state state.stack
      usedLen bufLen (encodingElements encodingBase value count i) := by
  induction count generalizing i usedLen state with
  | zero =>
      apply Writes.written
      · intro nonempty
        exact absurd rfl nonempty
      · simp [packElements]
  | succ count ih =>
      rcases state with ⟨stack, out, calls⟩
      have read := Lua.rawgeti_apply (i + 1) (given ▸ isTable)
      rw [given] at read
      rcases base.writes (value.index (i + 1)) stack out calls (bufLen - usedLen) with
        ⟨converted, head⟩
      rw [encodingElements]
      apply Writes.of_eq (Program.bind_of_ret read)
      apply Writes.andThen top head (base.nonempty _)
      intro bytes encoded
      have later := ih (i + 1) (usedLen + bytes.length)
        (show LuaState.valueAt ⟨stack, out ++ bytes, calls⟩ dataIn = value from given)
      rw [Nat.cast_succ] at later
      exact later

theorem writes_packArray (base : WritesTop packBase encodingBase) (size : ℕ) {state : LuaState}
    (given : state.valueAt dataIn = value) :
    Writes (packArray packBase size dataIn bufLen) state state.stack 0 bufLen
      (encodingArray encodingBase size value) := by
  unfold encodingArray
  split_ifs with isTable counted long long
  · subst counted
    have gaveUp : ∃ final, Inside state final 0 bufLen ∧
        packArray packBase (0 : ℕ) dataIn bufLen state = (.ret 0, final) := by
      by_cases room : 1 ≤ bufLen
      · refine ⟨⟨state.stack, state.out ++ le 1 (unsigned32 (int32 value.objlen)), state.calls⟩,
          ⟨_, rfl, ?_⟩, ?_⟩
        · rw [length_le]
          omega
        · simp [packArray, Program.bind_apply, given, isTable, checkBuf_of_le room, packCounted,
            long]
      · refine ⟨state, inside_same rfl _ _, ?_⟩
        simp [packArray, Program.bind_apply, given, isTable, checkBuf, not_le.mp room]
    rcases gaveUp with ⟨final, inside, returned⟩
    apply Writes.gaveUp ?_ inside returned
    intro bytes absurdity
    cases absurdity
  · subst counted
    have start : packArray packBase (0 : ℕ) dataIn bufLen state =
        checkBuf 1 bufLen (do
          Lua.emit (le 1 (unsigned32 (int32 value.objlen)))
          packCounted packBase state.stack.length dataIn bufLen (int32 value.objlen) 1) state := by
      simp [packArray, Program.bind_apply, given, isTable]
    by_cases room : 1 ≤ bufLen
    · have body : packArray packBase (0 : ℕ) dataIn bufLen state =
          packElements packBase state.stack.length dataIn bufLen (int32 value.objlen).toNat
            ((0 : ℕ) + 1) 1
            ⟨state.stack, state.out ++ le 1 (unsigned32 (int32 value.objlen)), state.calls⟩ := by
        rw [start, checkBuf_of_le room]
        simp [Program.bind_apply, packCounted, long]
      apply Writes.behind body
      · intro _
        rw [length_le]
        omega
      · rw [length_le]
        exact writes_packElements base _ isTable _ 0 _ given
    · apply Writes.gaveUp ?_ (inside_same rfl _ _)
        (start.trans (checkBuf_of_gt (not_le.mp room) _ state))
      intro bytes encoded
      rcases Encoding.append_eq_ok.mp encoded with ⟨front, back, first, -, rfl⟩
      cases first
      refine ⟨by simp [le], ?_⟩
      rw [List.length_append, length_le]
      omega
  · have refused : packArray packBase size dataIn bufLen state = (.ret 0, state) := by
      have fixed : (size : ℤ) ≠ 0 := by omega
      have tooLong : (size : ℤ) > 512 := by omega
      simp [packArray, Program.bind_apply, given, isTable, counted, packCounted, tooLong]
    apply Writes.gaveUp ?_ (inside_same rfl _ _) refused
    intro bytes absurdity
    cases absurdity
  · have body : packArray packBase size dataIn bufLen state =
        packElements packBase state.stack.length dataIn bufLen size ((0 : ℕ) + 1) 0 state := by
      have short : ¬ 512 < size := long
      simp [packArray, packCounted, Program.bind_apply, given, isTable, short, counted]
    exact (writes_packElements base _ isTable size 0 0 given).of_eq body
  · apply Writes.raised (inside_same rfl _ _)
    simp [packArray, Program.bind_apply, given, isTable]

end Arrays

/-! ## Tables and the dispatch on the format -/

section Formats

variable (numerals : Numerals)

theorem packOpcodes_pushValue {value : LuaValue} (isTable : value.isTable = true) (key : LuaKey)
    (valueArg : FcallArg) (rest : List TableOpcode) (top bufLen usedLen : ℤ)
    (stack : List LuaValue) (out : Bytes) (calls : List (LuaValue × List LuaValue)) :
    packOpcodes numerals (.pushValue key valueArg :: rest) top bufLen usedLen
        ⟨value :: stack, out, calls⟩ = (do
      let curUsed ← valueArg.pack numerals (stack.length + 1 + 1) (bufLen - usedLen)
      afterPack top curUsed (packOpcodes numerals rest top bufLen (usedLen + curUsed)))
        ⟨value.field key :: value :: stack, out, calls⟩ := by
  rw [packOpcodes, Program.bind_of_ret (Lua.getref_apply _ _),
    Program.bind_of_ret (Lua.rawget_apply _ _ _ isTable key),
    Program.bind_of_ret (Lua.gettop_apply _)]
  rfl

theorem packOpcodes_tbBegin {value : LuaValue} (isTable : value.isTable = true) {key : LuaKey}
    (entered : (value.field key).isTable = true) (rest : List TableOpcode)
    (top bufLen usedLen : ℤ) (stack : List LuaValue) (out : Bytes)
    (calls : List (LuaValue × List LuaValue)) :
    packOpcodes numerals (.tbBegin (some key) :: rest) top bufLen usedLen
        ⟨value :: stack, out, calls⟩ =
      packOpcodes numerals rest top bufLen usedLen
        ⟨value.field key :: value :: stack, out, calls⟩ := by
  rw [packOpcodes, Program.bind_of_ret (Lua.getref_apply _ _),
    Program.bind_of_ret (Lua.rawget_apply _ _ _ isTable key),
    Program.bind_of_ret (Lua.valueAt_apply _ _)]
  simp [entered]

theorem packOpcodes_tbBegin_mistyped {value : LuaValue} (isTable : value.isTable = true)
    {key : LuaKey} (other : ¬ (value.field key).isTable = true) (rest : List TableOpcode)
    (top bufLen usedLen : ℤ) (stack : List LuaValue) (out : Bytes)
    (calls : List (LuaValue × List LuaValue)) :
    packOpcodes numerals (.tbBegin (some key) :: rest) top bufLen usedLen
        ⟨value :: stack, out, calls⟩ =
      (.raise, ⟨(value.field key :: value :: stack).drop (stack.length + 2 - top.toNat), out,
        calls⟩) := by
  rw [packOpcodes, Program.bind_of_ret (Lua.getref_apply _ _),
    Program.bind_of_ret (Lua.rawget_apply _ _ _ isTable key),
    Program.bind_of_ret (Lua.valueAt_apply _ _)]
  simp [other, Program.bind_apply]

theorem packOpcodes_tbEnd (value : LuaValue) (rest : List TableOpcode) (top bufLen usedLen : ℤ)
    (stack : List LuaValue) (out : Bytes) (calls : List (LuaValue × List LuaValue)) :
    packOpcodes numerals (.tbEnd :: rest) top bufLen usedLen ⟨value :: stack, out, calls⟩ =
      packOpcodes numerals rest top bufLen usedLen ⟨stack, out, calls⟩ := by
  rw [packOpcodes, Program.bind_of_ret (Lua.pop_one_apply _ _ _ _)]

/-- The stack after a value was packed: a string format leaves a string in place of a number. -/
def packedStack (type : ArgType) (dataIn : ℤ) (state : LuaState) : List LuaValue :=
  match type with
  | .string => stringStack numerals dataIn state
  | _ => state.stack

theorem packedStack_top (type : ArgType) {value : LuaValue} {rest : List LuaValue} {out : Bytes}
    {calls : List (LuaValue × List LuaValue)} {dataIn : ℤ}
    (addressed : LuaState.slot ⟨value :: rest, out, calls⟩ dataIn = 0) :
    ∃ converted, packedStack numerals type dataIn ⟨value :: rest, out, calls⟩ =
      converted :: rest := by
  have string : ∃ converted, stringStack numerals dataIn ⟨value :: rest, out, calls⟩ =
      converted :: rest := by
    simp only [stringStack, LuaState.setValueAt, addressed, LuaState.valueAt]
    cases value with
    | number amount => exact ⟨_, rfl⟩
    | nil => exact ⟨_, rfl⟩
    | boolean truth => exact ⟨_, rfl⟩
    | string text => exact ⟨_, rfl⟩
    | function ref => exact ⟨_, rfl⟩
    | packClosure self => exact ⟨_, rfl⟩
    | table entries => exact ⟨_, rfl⟩
  cases type with
  | string => exact string
  | number => exact ⟨value, rfl⟩
  | byte => exact ⟨value, rfl⟩
  | word => exact ⟨value, rfl⟩
  | dword => exact ⟨value, rfl⟩
  | array element size => exact ⟨value, rfl⟩
  | table fields => exact ⟨value, rfl⟩

theorem Writes.orRefused {program : LuaM ℤ} {state : LuaState} {after : List LuaValue}
    {bufLen : ℤ} {fields : Encoding} {value : LuaValue} (isTable : value.isTable = true)
    (writes : Writes program state after 0 bufLen fields) :
    Writes program state after 0 bufLen (encodingTable fields value) := by
  rw [encodingTable, if_pos isTable]
  cases writes with
  | @written bytes fits returns =>
      by_cases empty : bytes = []
      · subst empty
        refine Writes.gaveUp ?_ ?_ returns
        · intro others absurdity
          simp [bind, Except.bind] at absurdity
        · exact inside_same (List.append_nil _) _ _
      · have kept : (do
            let contents ← (.ok bytes : Encoding)
            if contents = [] then .error .refused else return contents) = .ok bytes :=
          if_neg empty
        rw [kept]
        exact Writes.written fits returns
  | gaveUp short inside returns =>
      refine Writes.gaveUp ?_ inside returns
      intro bytes encoded
      have known : encodingTable fields value = .ok bytes := (if_pos isTable).trans encoded
      exact short bytes (encodingTable_ok.mp known).2.1
  | raised inside returns => exact Writes.raised inside returns
  | overflow => exact Writes.overflow

mutual

/-- Every format refines the encoder of its type. -/
theorem writes_pack : (type : ArgType) → (dataIn bufLen : ℤ) → (state : LuaState) →
    Writes (type.compile.pack numerals dataIn bufLen) state (packedStack numerals type dataIn state)
      0 bufLen (type.encoding numerals (state.valueAt dataIn))
  | .number, _, bufLen, _ => by
      simpa [compile, pack, encoding, packedStack] using writes_packNumber bufLen
  | .byte, _, bufLen, _ => by
      simpa [compile, pack, packByte, encoding, packedStack] using
        writes_packFixed Nat.one_pos bufLen
  | .word, _, bufLen, _ => by
      simpa [compile, pack, packWord, encoding, packedStack] using
        writes_packFixed Nat.two_pos bufLen
  | .dword, _, bufLen, _ => by
      simpa [compile, pack, packDword, encoding, packedStack] using
        writes_packFixed (by omega : 0 < 4) bufLen
  | .string, _, bufLen, _ => by
      simpa [compile, pack, encoding, packedStack] using writes_packString numerals bufLen
  | .array element size, dataIn, bufLen, state => by
      have base : WritesTop (fun index remaining => element.compile.pack numerals index remaining)
          (fun entry => element.encoding numerals entry) := by
        refine ⟨fun value bytes encoded => encoding_ne_nil element encoded, ?_⟩
        intro value rest out calls remaining
        have head := writes_pack element (-1) remaining ⟨value :: rest, out, calls⟩
        rw [LuaState.valueAt_neg_one] at head
        have addressed : LuaState.slot ⟨value :: rest, out, calls⟩ (-1) = 0 := by
          simp [LuaState.slot]
        rcases packedStack_top numerals element addressed with ⟨converted, same⟩
        rw [same] at head
        exact ⟨converted, head⟩
      simp only [compile, pack, encoding, packedStack]
      exact writes_packArray base size rfl
  | .table fields, dataIn, bufLen, ⟨stack, out, calls⟩ => by
      simp only [encoding, packedStack]
      generalize given : LuaState.valueAt ⟨stack, out, calls⟩ dataIn = value
      by_cases isTable : value.isTable = true
      · have body : (ArgType.table fields).compile.pack numerals dataIn bufLen
            ⟨stack, out, calls⟩ =
            packOpcodes numerals ((compileFields fields).fieldOpcodes ++ [.tbEnd]) stack.length
              bufLen 0 ⟨value :: stack, out, calls⟩ := by
          simp [compile, pack, TableShape.opcodes, Program.bind_apply, given, isTable]
        apply Writes.orRefused isTable
        rw [← Encoding.append_nil (encodingFields numerals fields value)]
        apply Writes.of_eq body
        apply writes_packOpcodes fields isTable
        intro outAfter usedAfter
        apply Writes.written
        · intro nonempty
          exact absurd rfl nonempty
        · simp [packOpcodes, Program.bind_apply]
      · rw [encodingTable, if_neg isTable]
        apply Writes.raised (inside_same rfl _ _)
        simp [compile, pack, Program.bind_apply, given, isTable]

/-- The opcodes of some fields write the encodings of the fields and then run the rest. -/
theorem writes_packOpcodes : (fields : TableShape ArgType) → {value : LuaValue} →
    value.isTable = true → {more : List TableOpcode} → {moreEncoding : Encoding} →
    {top bufLen usedLen : ℤ} → {stack after : List LuaValue} → {out : Bytes} →
    {calls : List (LuaValue × List LuaValue)} →
    (∀ (outAfter : Bytes) (usedAfter : ℤ),
      Writes (packOpcodes numerals more top bufLen usedAfter) ⟨value :: stack, outAfter, calls⟩
        after usedAfter bufLen moreEncoding) →
    Writes (packOpcodes numerals ((compileFields fields).fieldOpcodes ++ more) top bufLen usedLen)
      ⟨value :: stack, out, calls⟩ after usedLen bufLen
      ((encodingFields numerals fields value).append moreEncoding)
  | .nil, _, _, _, _, _, _, _, _, _, _, _, rest => by
      rw [encodingFields, Encoding.nil_append]
      exact rest _ _
  | .value key type fields, value, isTable, more, moreEncoding, top, bufLen, usedLen, stack, after,
      out, calls, rest => by
      have head := writes_pack type (stack.length + 1 + 1) (bufLen - usedLen)
        ⟨value.field key :: value :: stack, out, calls⟩
      have height := LuaState.valueAt_height (value.field key) (value :: stack) out calls
      rw [List.length_cons, Nat.cast_add_one] at height
      rw [height] at head
      have addressed : LuaState.slot ⟨value.field key :: value :: stack, out, calls⟩
          (stack.length + 1 + 1) = 0 := by
        simp only [LuaState.slot, List.length_cons]
        omega
      rcases packedStack_top numerals type addressed with ⟨converted, same⟩
      rw [same] at head
      rw [encodingFields, Encoding.append_assoc]
      simp only [compileFields, TableShape.fieldOpcodes, List.cons_append]
      apply Writes.of_eq (packOpcodes_pushValue numerals isTable key type.compile _ top bufLen
        usedLen stack out calls)
      apply Writes.andThen top head (fun _ encoded => encoding_ne_nil type encoded)
      intro bytes encoded
      exact writes_packOpcodes fields isTable rest
  | .sub key inner fields, value, isTable, more, moreEncoding, top, bufLen, usedLen, stack, after,
      out, calls, rest => by
      simp only [encodingFields, compileFields, TableShape.fieldOpcodes, List.cons_append,
        List.append_assoc]
      by_cases entered : (value.field key).isTable = true
      · rw [if_pos entered, Encoding.append_assoc]
        apply Writes.of_eq (packOpcodes_tbBegin numerals isTable entered _ top bufLen usedLen
          stack out calls)
        apply writes_packOpcodes inner entered
        intro outAfter usedAfter
        apply Writes.of_eq (packOpcodes_tbEnd numerals _ _ top bufLen usedAfter _ outAfter calls)
        exact writes_packOpcodes fields isTable rest
      · rw [if_neg entered]
        refine Writes.raised (inside_same ?_ _ _)
          (packOpcodes_tbBegin_mistyped numerals isTable entered _ top bufLen usedLen stack out
            calls)
        rfl

end

end Formats

end FcallArg

end SimpleModule
