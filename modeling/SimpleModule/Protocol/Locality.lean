import SimpleModule.Lib.Readers
import SimpleModule.Protocol.Message

/-!
# Locality of decoding

Every format checks the length of the rest of the buffer against exactly what it consumes.
So what follows an accepted message has no influence, and a message that is cut off at any
point is refused without a call.  This holds for all format objects, also for tables whose
opcodes are not balanced.
-/

namespace SimpleModule

open Octets Exits Readers

/-! ## Operations that call no script function -/

namespace Lua

theorem keeps_modify {change : LuaState → LuaState}
    (same : ∀ state, (change state).calls = state.calls) :
    Keeps LuaState.calls (Program.modify change) := same

theorem keeps_settop (height : ℤ) : Keeps LuaState.calls (settop height) :=
  keeps_modify fun _ => rfl

theorem keeps_push (value : LuaValue) : Keeps LuaState.calls (push value) :=
  keeps_modify fun _ => rfl

theorem keeps_pop (count : ℕ) : Keeps LuaState.calls (pop count) := by
  intro state
  unfold pop
  split_ifs
  · rfl
  · rfl

theorem keeps_assert (condition : Bool) : Keeps LuaState.calls (assert condition) := by
  apply Keeps.ite
  · exact keeps_pure _
  · exact keeps_exit _

theorem keeps_rawset (index : ℤ) : Keeps LuaState.calls (rawset index) := by
  apply (keeps_get _).bind
  intro table
  apply (keeps_get _).bind
  intro key
  apply (keeps_get _).bind
  intro value
  split
  · apply Keeps.bind
    · exact keeps_modify fun _ => rfl
    · intro _
      exact keeps_pop 2
  · exact keeps_exit _
  · exact keeps_exit _

end Lua

namespace FcallArg

theorem keeps_checkBuf {dataLen bufLen : ℤ} {rest : LuaM ℤ} (keeps : Keeps LuaState.calls rest) :
    Keeps LuaState.calls (checkBuf dataLen bufLen rest) :=
  Keeps.ite (keeps_pure _) keeps

theorem keeps_fetch (buf : Bytes) (offset count : ℕ) :
    Keeps LuaState.calls (fetch buf offset count) :=
  Keeps.ite (keeps_pure _) (keeps_exit _)

theorem keeps_afterUnpack {rest : LuaM ℤ} (top curReaded index : ℤ)
    (keeps : Keeps LuaState.calls rest) :
    Keeps LuaState.calls (afterUnpack top curReaded index rest) := by
  apply Keeps.ite
  · exact (Lua.keeps_settop top).bind fun _ => keeps_pure _
  · exact (Lua.keeps_rawset index).bind fun _ => keeps

theorem keeps_unpackNumber (buf : Bytes) (bufLen : ℤ) :
    Keeps LuaState.calls (unpackNumber buf bufLen) := by
  apply keeps_checkBuf
  apply (keeps_fetch _ _ _).bind
  intro octets
  apply Keeps.ite
  · exact keeps_pure _
  · apply keeps_checkBuf
    apply (keeps_fetch _ _ _).bind
    intro data
    exact (Lua.keeps_push _).bind fun _ => keeps_pure _

theorem keeps_unpackFixed (width : ℕ) (read : ℤ → ℤ) (buf : Bytes) (bufLen : ℤ) :
    Keeps LuaState.calls (unpackFixed width read buf bufLen) := by
  apply keeps_checkBuf
  apply (keeps_fetch _ _ _).bind
  intro data
  exact (Lua.keeps_push _).bind fun _ => keeps_pure _

theorem keeps_unpackChars (buf : Bytes) (bufLen : ℤ) (offset strId : ℕ) :
    Keeps LuaState.calls (unpackChars buf bufLen offset strId) := by
  apply Keeps.ite
  · exact keeps_pure _
  · apply keeps_checkBuf
    apply (keeps_fetch _ _ _).bind
    intro text
    exact (Lua.keeps_push _).bind fun _ => keeps_pure _

theorem keeps_unpackString (buf : Bytes) (bufLen : ℤ) :
    Keeps LuaState.calls (unpackString buf bufLen) := by
  apply keeps_checkBuf
  apply (keeps_fetch _ _ _).bind
  intro octets
  apply Keeps.ite
  · apply Keeps.ite
    · exact (Lua.keeps_push _).bind fun _ => keeps_pure _
    · exact keeps_unpackChars _ _ _ _
  · apply keeps_checkBuf
    apply (keeps_fetch _ _ _).bind
    intro escaped
    exact keeps_unpackChars _ _ _ _

theorem keeps_unpackElements {unpackBase : Bytes → ℤ → LuaM ℤ}
    (keeps : ∀ buf bufLen, Keeps LuaState.calls (unpackBase buf bufLen)) (top dataI : ℤ)
    (buf : Bytes) (bufLen : ℤ) (count : ℕ) (i readedLen : ℤ) :
    Keeps LuaState.calls (unpackElements unpackBase top dataI buf bufLen count i readedLen) := by
  induction count generalizing i readedLen with
  | zero =>
      apply (keeps_get _).bind
      intro height
      exact (Lua.keeps_assert _).bind fun _ => keeps_pure _
  | succ count ih =>
      apply (Lua.keeps_push _).bind
      intro _
      apply (keeps _ _).bind
      intro curReaded
      exact keeps_afterUnpack _ _ _ (ih _ _)

theorem keeps_unpackArray {unpackBase : Bytes → ℤ → LuaM ℤ}
    (keeps : ∀ buf bufLen, Keeps LuaState.calls (unpackBase buf bufLen)) (size : ℤ) (buf : Bytes)
    (bufLen : ℤ) : Keeps LuaState.calls (unpackArray unpackBase size buf bufLen) := by
  apply (keeps_get _).bind
  intro top
  apply (Lua.keeps_push _).bind
  intro _
  apply Keeps.ite
  · apply keeps_checkBuf
    apply (keeps_fetch _ _ _).bind
    intro octets
    exact keeps_unpackElements keeps _ _ _ _ _ _ _
  · exact keeps_unpackElements keeps _ _ _ _ _ _ _

mutual

/-- No format calls a script function, however it ends. -/
theorem keeps_unpack : (codec : FcallArg) → (buf : Bytes) → (bufLen : ℤ) →
    Keeps LuaState.calls (codec.unpack buf bufLen)
  | .number, buf, bufLen => keeps_unpackNumber buf bufLen
  | .byte, buf, bufLen => keeps_unpackFixed 1 id buf bufLen
  | .word, buf, bufLen => keeps_unpackFixed 2 int16 buf bufLen
  | .dword, buf, bufLen => keeps_unpackFixed 4 int32 buf bufLen
  | .string, buf, bufLen => keeps_unpackString buf bufLen
  | .array basePacker size, buf, bufLen =>
      keeps_unpackArray (fun rest remaining => keeps_unpack basePacker rest remaining) size buf
        bufLen
  | .table opcodes, buf, bufLen => by
      rw [unpack]
      apply (keeps_get _).bind
      intro top
      apply (Lua.keeps_push _).bind
      intro _
      exact keeps_unpackOpcodes opcodes _ _ _ _

theorem keeps_unpackOpcodes : (opcodes : List TableOpcode) → (top : ℤ) → (buf : Bytes) →
    (bufLen readedLen : ℤ) →
    Keeps LuaState.calls (unpackOpcodes opcodes top buf bufLen readedLen)
  | [], _, _, _, _ => by
      rw [unpackOpcodes]
      exact keeps_exit _
  | .tbBegin none :: rest, _, _, _, _ => by
      rw [unpackOpcodes]
      exact Keeps.ite (keeps_pure _) (keeps_exit _)
  | .tbBegin (some key) :: rest, top, buf, bufLen, readedLen => by
      rw [unpackOpcodes]
      apply Keeps.ite
      · exact keeps_pure _
      · apply (Lua.keeps_push _).bind
        intro _
        apply (Lua.keeps_push _).bind
        intro _
        exact keeps_unpackOpcodes rest _ _ _ _
  | .pushValue key valueArg :: rest, top, buf, bufLen, readedLen => by
      rw [unpackOpcodes]
      apply Keeps.ite
      · exact keeps_pure _
      · apply (Lua.keeps_push _).bind
        intro _
        apply (keeps_unpack valueArg _ _).bind
        intro curReaded
        exact keeps_afterUnpack _ _ _ (keeps_unpackOpcodes rest _ _ _ _)
  | .tbEnd :: rest, top, buf, bufLen, readedLen => by
      rw [unpackOpcodes]
      apply Keeps.ite
      · exact keeps_pure _
      · apply (Lua.keeps_rawset _).bind
        intro _
        exact keeps_unpackOpcodes rest _ _ _ _

end

/-! ## Locality of the formats -/

/-- A format consumes what it accepts, or returns zero. -/
abbrev IsLocal (start : ℕ) (reader : Bytes → LuaM ℤ) : Prop :=
  LocalFrom LuaState.calls (· = 0) start reader

theorem localFrom_checkBuf {refusal : ℤ → Prop} {start count : ℕ} {dataLen : ℤ}
    {next : Bytes → Bytes → LuaM ℤ} (zero : refusal 0) (measured : dataLen = (start + count : ℕ))
    (isLocal : ∀ octets, LocalFrom LuaState.calls refusal (start + count) (next octets)) :
    LocalFrom LuaState.calls refusal start fun buf =>
      checkBuf dataLen buf.length (fetch buf start count >>= fun octets => next octets buf) := by
  apply (localFrom_take zero isLocal).congr
  intro buf _
  by_cases room : start + count ≤ buf.length
  · rw [if_pos room, checkBuf_of_le (by omega), fetch, if_pos room]
    rfl
  · rw [if_neg room, checkBuf, if_pos (by omega)]

theorem isLocal_checkBuf {start count : ℕ} {dataLen : ℤ} {next : Bytes → Bytes → LuaM ℤ}
    (measured : dataLen = (start + count : ℕ))
    (isLocal : ∀ octets, IsLocal (start + count) (next octets)) :
    IsLocal start fun buf =>
      checkBuf dataLen buf.length (fetch buf start count >>= fun octets => next octets buf) :=
  localFrom_checkBuf rfl measured isLocal

/-- The value is pushed at the end. -/
theorem isLocal_push (start : ℕ) (value : LuaValue) {result : ℤ} (counted : result = start) :
    IsLocal start fun _ => Lua.push value >>= fun _ => pure result := by
  apply localFrom_const
  rintro state after ended ⟨⟩ _
  exact counted

theorem isLocal_zero (start : ℕ) : IsLocal start fun _ => pure 0 := by
  apply localFrom_const
  rintro state after ended ⟨⟩ accepted
  exact absurd rfl accepted

theorem isLocal_unpackNumber : IsLocal 0 fun buf => unpackNumber buf buf.length := by
  unfold unpackNumber
  refine isLocal_checkBuf (by simp) ?_
  intro octets
  by_cases invalid : ofLe octets / 2 ≤ 0 ∨ ofLe octets / 2 ≥ 5
  · simp only [if_pos invalid]
    exact isLocal_zero _
  · simp only [if_neg invalid]
    refine isLocal_checkBuf (by simp) ?_
    intro data
    apply isLocal_push
    simp

theorem isLocal_unpackFixed (width : ℕ) (read : ℤ → ℤ) :
    IsLocal 0 fun buf => unpackFixed width read buf buf.length := by
  unfold unpackFixed
  refine isLocal_checkBuf (by simp) ?_
  intro data
  apply isLocal_push
  simp

theorem isLocal_unpackChars (offset strId : ℕ) :
    IsLocal offset fun buf => unpackChars buf buf.length offset strId := by
  unfold unpackChars
  by_cases empty : strId = 0
  · simp only [if_pos empty]
    exact isLocal_zero _
  · simp only [if_neg empty]
    refine isLocal_checkBuf (by simp) ?_
    intro text
    apply isLocal_push
    simp

theorem isLocal_unpackString : IsLocal 0 fun buf => unpackString buf buf.length := by
  unfold unpackString
  refine isLocal_checkBuf (by simp) ?_
  intro octets
  by_cases short : ofLe octets > 0
  · simp only [if_pos short]
    by_cases empty : ofLe octets = 1
    · simp only [if_pos empty]
      exact isLocal_push _ _ rfl
    · simp only [if_neg empty]
      exact isLocal_unpackChars 1 _
  · simp only [if_neg short]
    refine isLocal_checkBuf (by simp) ?_
    intro escaped
    exact isLocal_unpackChars 3 _

/-- A nested format stores its value and goes on, or ends the reading. -/
theorem isLocal_afterUnpack {start : ℕ} {inner : Bytes → LuaM ℤ} {top index : ℤ}
    (rest : ℤ → Bytes → LuaM ℤ) (isLocal : IsLocal 0 inner)
    (keeps : ∀ buf, Keeps LuaState.calls (inner buf))
    (goes : ∀ count : ℕ, IsLocal (start + count) (rest count)) :
    IsLocal start fun buf => inner (buf.drop start) >>= fun curReaded =>
      afterUnpack top curReaded index (rest curReaded buf) := by
  apply localFrom_nested isLocal keeps
  · rintro result rfl buf state
    exact ⟨0, _, rfl, rfl, rfl⟩
  · intro count accepted
    simp only [afterUnpack, if_neg accepted]
    exact localFrom_bind (Lua.keeps_rawset index) fun _ => goes count

theorem isLocal_unpackElements {unpackBase : Bytes → ℤ → LuaM ℤ}
    (isLocal : IsLocal 0 fun buf => unpackBase buf buf.length)
    (keeps : ∀ buf bufLen, Keeps LuaState.calls (unpackBase buf bufLen)) (top dataI : ℤ)
    (count : ℕ) (i : ℤ) (start : ℕ) :
    IsLocal start fun buf =>
      unpackElements unpackBase top dataI buf buf.length count i start := by
  induction count generalizing i start with
  | zero =>
      unfold unpackElements
      apply localFrom_bind (keeps_get _)
      intro height
      apply localFrom_bind (Lua.keeps_assert _)
      intro _
      apply localFrom_const
      rintro state after ended ⟨⟩ _
      rfl
  | succ count ih =>
      have goes (consumed : ℕ) : IsLocal (start + consumed) fun buf =>
          unpackElements unpackBase top dataI buf buf.length count (i + 1) (start + consumed) := by
        simpa using ih (i + 1) (start + consumed)
      unfold unpackElements
      apply localFrom_bind (Lua.keeps_push _)
      intro _
      apply (isLocal_afterUnpack (fun curReaded buf => unpackElements unpackBase top dataI buf
        buf.length count (i + 1) (start + curReaded)) isLocal (fun buf => keeps buf _) goes).congr
      intro buf inside
      rw [Int.toNat_natCast, List.length_drop, Nat.cast_sub inside]

theorem isLocal_unpackArray {unpackBase : Bytes → ℤ → LuaM ℤ}
    (isLocal : IsLocal 0 fun buf => unpackBase buf buf.length)
    (keeps : ∀ buf bufLen, Keeps LuaState.calls (unpackBase buf bufLen)) (size : ℤ) :
    IsLocal 0 fun buf => unpackArray unpackBase size buf buf.length := by
  unfold unpackArray
  apply localFrom_bind (keeps_get _)
  intro top
  apply localFrom_bind (Lua.keeps_push _)
  intro _
  by_cases counted : size = 0
  · simp only [if_pos counted]
    refine isLocal_checkBuf (by simp) ?_
    intro octets
    exact isLocal_unpackElements isLocal keeps top (top + 1) (ofLe octets) 0 1
  · simp only [if_neg counted]
    exact isLocal_unpackElements isLocal keeps top (top + 1) size.toNat 0 0

/-- The last opcode ends the loop. -/
theorem isLocal_unlessLast {start : ℕ} {rest : List TableOpcode} {reader : Bytes → LuaM ℤ}
    (isLocal : IsLocal start reader) :
    IsLocal start fun buf => if rest.isEmpty = true then pure (start : ℤ) else reader buf := by
  by_cases last : rest.isEmpty = true
  · simp only [if_pos last]
    apply localFrom_const
    rintro state after ended ⟨⟩ _
    rfl
  · simp only [if_neg last]
    exact isLocal

mutual

/-- Every format is local. -/
theorem isLocal_unpack : (codec : FcallArg) → IsLocal 0 fun buf => codec.unpack buf buf.length
  | .number => isLocal_unpackNumber
  | .byte => isLocal_unpackFixed 1 id
  | .word => isLocal_unpackFixed 2 int16
  | .dword => isLocal_unpackFixed 4 int32
  | .string => isLocal_unpackString
  | .array basePacker size => isLocal_unpackArray (isLocal_unpack basePacker)
      (fun rest remaining => keeps_unpack basePacker rest remaining) size
  | .table opcodes => by
      simp only [unpack]
      apply localFrom_bind (keeps_get _)
      intro top
      apply localFrom_bind (Lua.keeps_push _)
      intro _
      exact isLocal_unpackOpcodes opcodes top 0

theorem isLocal_unpackOpcodes : (opcodes : List TableOpcode) → (top : ℤ) → (start : ℕ) →
    IsLocal start fun buf => unpackOpcodes opcodes top buf buf.length start
  | [], _, _ => by
      simp only [unpackOpcodes]
      apply localFrom_const
      rintro state after result ⟨⟩
  | .tbBegin none :: rest, top, start => by
      simp only [unpackOpcodes]
      apply isLocal_unlessLast
      apply localFrom_const
      rintro state after result ⟨⟩
  | .tbBegin (some key) :: rest, top, start => by
      simp only [unpackOpcodes]
      apply isLocal_unlessLast
      apply localFrom_bind (Lua.keeps_push _)
      intro _
      apply localFrom_bind (Lua.keeps_push _)
      intro _
      exact isLocal_unpackOpcodes rest top start
  | .pushValue key valueArg :: rest, top, start => by
      have goes (consumed : ℕ) : IsLocal (start + consumed) fun buf =>
          unpackOpcodes rest top buf buf.length (start + consumed) := by
        simpa using isLocal_unpackOpcodes rest top (start + consumed)
      simp only [unpackOpcodes]
      apply isLocal_unlessLast
      apply localFrom_bind (Lua.keeps_push _)
      intro _
      apply (isLocal_afterUnpack (fun curReaded buf => unpackOpcodes rest top buf buf.length
        (start + curReaded)) (isLocal_unpack valueArg) (fun buf => keeps_unpack valueArg buf _)
        goes).congr
      intro buf inside
      rw [Int.toNat_natCast, List.length_drop, Nat.cast_sub inside]
  | .tbEnd :: rest, top, start => by
      simp only [unpackOpcodes]
      apply isLocal_unlessLast
      apply localFrom_bind (Lua.keeps_rawset _)
      intro _
      exact isLocal_unpackOpcodes rest top start

end

end FcallArg

/-! ## Locality of messages -/

namespace NetProtocol

open FcallArg

/-- The call of the bound function does not depend on the buffer. -/
theorem localFrom_callHandler (numerals : Numerals) (script : Lua.Script) (top : ℤ) (count : ℕ)
    (start : ℕ) : LocalFrom LuaState.calls (· < 0) start fun _ : Bytes =>
      callHandler numerals script top count start := by
  apply localFrom_const
  intro state after result returns accepted
  rcases Program.bind_eq_ret_iff.mp returns with ⟨raised, between, -, returns⟩
  cases raised with
  | true =>
      rcases Program.bind_eq_ret_iff.mp returns with ⟨text, later, -, returns⟩
      cases returns
      exact absurd (by decide) accepted
  | false =>
      cases returns
      rfl

theorem localFrom_unpackArgs (top : ℤ) {finish : ℤ → LuaM ℤ}
    (finishes : ∀ start : ℕ,
      LocalFrom LuaState.calls (· < 0) start fun _ : Bytes => finish start)
    (args : List ArgObj) (start : ℕ) :
    LocalFrom LuaState.calls (· < 0) start fun buf =>
      unpackArgs top buf buf.length finish args start := by
  induction args generalizing start with
  | nil => exact finishes start
  | cons arg rest ih =>
      have isLocal : LocalFrom LuaState.calls (· < 0) start fun buf =>
          arg.codec.unpack (buf.drop start) (buf.drop start).length >>= fun curReaded =>
            if curReaded = 0 then do
              Lua.settop top
              return errorUnpackFormat
            else unpackArgs top buf buf.length finish rest (start + curReaded) := by
        apply localFrom_nested (isLocal_unpack arg.codec) (fun buf => keeps_unpack arg.codec buf _)
        · rintro result rfl buf state
          exact ⟨errorUnpackFormat, _, rfl, by decide, rfl⟩
        · intro count accepted
          simp only [if_neg accepted, ← Nat.cast_add]
          exact ih (start + count)
      apply isLocal.congr
      intro buf inside
      rw [unpackArgs, Int.toNat_natCast, List.length_drop, Nat.cast_sub inside]

theorem localFrom_unpack (numerals : Numerals) (script : Lua.Script) (proto : NetProtocol)
    (ext : ℤ) : LocalFrom LuaState.calls (· < 0) 0 fun buf =>
      proto.unpack numerals script buf buf.length ext := by
  simp only [unpack]
  apply localFrom_bind (keeps_get _)
  intro top
  cases proto.unpackRef with
  | none =>
      apply localFrom_const
      rintro state after result ⟨⟩ accepted
      exact absurd (by decide) accepted
  | some handler =>
      apply localFrom_bind (Lua.keeps_push _)
      intro _
      apply localFrom_bind (Lua.keeps_assert _)
      intro _
      apply localFrom_bind (Lua.keeps_push _)
      intro _
      exact localFrom_unpackArgs top
        (fun start => localFrom_callHandler numerals script top (proto.args.length + 1) start)
        proto.args 0

end NetProtocol

namespace ProtoManager

open NetProtocol

theorem localFrom_dispatch (numerals : Numerals) (script : Lua.Script)
    (protos : List NetProtocol) (ext : ℤ) (start protoId : ℕ) :
    LocalFrom LuaState.calls (· ≤ 0) start fun buf =>
      dispatch numerals script protos buf buf.length ext start protoId := by
  unfold dispatch
  rcases protos[protoId]? with _ | proto
  · apply localFrom_const
    rintro state after result ⟨⟩ accepted
    exact absurd (by decide) accepted
  · have isLocal : LocalFrom LuaState.calls (· ≤ 0) start fun buf =>
        proto.unpack numerals script (buf.drop start) (buf.drop start).length ext >>=
          fun curReaded =>
            if curReaded < 0 then return curReaded
            else if curReaded = 0 ∧ proto.args.length > 0 then return errorUnpackFormat
            else return start + curReaded := by
      apply localFrom_last (localFrom_unpack numerals script proto ext)
      · intro result refused state
        exact ⟨result, state, by rw [if_pos refused]; rfl, refused.le, rfl⟩
      · intro count state after result returns accepted
        rw [if_neg (by omega)] at returns
        split_ifs at returns
        · cases returns
          exact absurd (by decide) accepted
        · cases returns
          push_cast
          rfl
    apply isLocal.congr
    intro buf inside
    simp only
    rw [Int.toNat_natCast, List.length_drop, Nat.cast_sub inside]

theorem localFrom_unpackData (numerals : Numerals) (script : Lua.Script)
    (protos : List NetProtocol) (ext : ℤ) :
    LocalFrom LuaState.calls (· ≤ 0) 0 fun buf =>
      unpackData numerals script protos buf buf.length ext := by
  unfold unpackData
  refine FcallArg.localFrom_checkBuf le_rfl (by simp) ?_
  intro octets
  by_cases long : ofLe octets = 0
  · simp only [if_pos long]
    refine FcallArg.localFrom_checkBuf le_rfl (by simp) ?_
    intro escaped
    exact localFrom_dispatch numerals script protos ext 3 (ofLe escaped)
  · simp only [if_neg long]
    exact localFrom_dispatch numerals script protos ext 1 (ofLe octets)

/--
If a message is accepted, every buffer that starts with its bytes has the same effect, and
no buffer that ends before them has one.
-/
theorem unpackData_local {numerals : Numerals} {script : Lua.Script} {protos : List NetProtocol}
    {buf : Bytes} {ext result : ℤ} {state after : LuaState}
    (returns : unpackData numerals script protos buf buf.length ext state = (.ret result, after))
    (positive : 0 < result) :
    ∃ consumed : ℕ, result = consumed ∧ consumed ≤ buf.length ∧
      (∀ other : Bytes, consumed ≤ other.length → other.take consumed = buf.take consumed →
        unpackData numerals script protos other other.length ext state = (.ret result, after)) ∧
      ∀ cut < consumed, ∃ refused final,
        unpackData numerals script protos (buf.take cut) (buf.take cut).length ext state =
          (.ret refused, final) ∧ refused ≤ 0 ∧ final.calls = state.calls := by
  rcases localFrom_unpackData numerals script protos ext buf state after result (Nat.zero_le _)
    returns (not_le.mpr positive) with ⟨consumed, counted, -, within, others, cuts⟩
  refine ⟨consumed, counted, within, others, ?_⟩
  intro cut short
  exact cuts cut (Nat.zero_le _) short

theorem unpackData_local_numberProtos :
    ∃ after, unpackData noNumerals (fun _ => none) numberProtos [1, 2, 7, 99]
        (([1, 2, 7, 99] : Bytes).length : ℕ) 0 ⟨[], [], []⟩ = (.ret 3, after) ∧
      after.calls.length = 1 ∧
      ∃ consumed : ℕ, (3 : ℤ) = consumed ∧ consumed ≤ 4 ∧
        (∀ other : Bytes, consumed ≤ other.length →
          other.take consumed = ([1, 2, 7, 99] : Bytes).take consumed →
          unpackData noNumerals (fun _ => none) numberProtos other other.length 0 ⟨[], [], []⟩ =
            (.ret 3, after)) ∧
        ∀ cut < consumed, ∃ refused final,
          unpackData noNumerals (fun _ => none) numberProtos (([1, 2, 7, 99] : Bytes).take cut)
            (([1, 2, 7, 99] : Bytes).take cut).length 0 ⟨[], [], []⟩ = (.ret refused, final) ∧
            refused ≤ 0 ∧ final.calls = [] := by
  generalize read : unpackData noNumerals (fun _ => none) numberProtos [1, 2, 7, 99]
    (([1, 2, 7, 99] : Bytes).length : ℕ) 0 ⟨[], [], []⟩ = outcome
  have returned : outcome.1 = .ret 3 := by
    rw [← read]
    decide +kernel
  have called : outcome.2.calls.length = 1 := by
    rw [← read]
    decide +kernel
  rcases outcome with ⟨ended, after⟩
  cases returned
  exact ⟨after, rfl, called, unpackData_local read (by decide)⟩

end ProtoManager

end SimpleModule
