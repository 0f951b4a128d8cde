import SimpleModule.Encrypt.Room
import SimpleModule.Lib.Pushing

/-!
# Frames as they arrive

`PacketHeaderProcess` reads a header and then a body, in whatever chunks they arrive.  The
bytes of a body go into a `MyBuf`, and a complete body is looked up there by `GetBufHead`.
Nothing is ever taken out of the buffer.

A header that arrives in two chunks is written outside of `_Header`, since the offset
`4-_NeedBufLen` is added to a pointer to `int`; a result of `none` is this, a failed
assertion, or an insertion that does not return.  Allocations succeed.

Since nothing is taken out, the level to which the buffer has been filled determines its
capacity and its block.  `InsertReturns` says which inserts return: up to `PACKET_MAX_LEN`
bytes fit the first block, and beyond that every insert has to exceed the recorded capacity,
so that the block grows again.

`Refines` relates the process to the pusher of `Frames`.  A header is read into an `int`.
If it announces `2 ^ 31` bytes or more, the process needs a negative number of bytes, and
the next byte that arrives makes `ReadOnceData` insert a negative number of bytes.  Until
then nothing has happened, so `Shadows` extends `Refines` by the state between such a header
and the next byte.
-/

namespace SimpleModule

open Octets
open Frames (Pusher)

/-- The values of `_status`. -/
inductive PacketStatus
  | header
  | body
  deriving DecidableEq, Repr

/-- The class `PacketHeaderProcess`; `header` is the memory of `_Header`. -/
structure PacketHeaderProcess where
  status : PacketStatus
  needBufLen : ℤ
  header : Bytes
  processVfd : ℤ
  vfdBuf : MyBuf

namespace PacketHeaderProcess

/-- `PACKET_MAX_LEN`. -/
def packetMaxLen : ℤ := 4096

/-- The constructor, which leaves `_Header` as it is. -/
def create (header : Bytes) : PacketHeaderProcess where
  status := .header
  needBufLen := 4
  header := header
  processVfd := -1
  vfdBuf := MyBuf.create packetMaxLen

/-- What `GetBufHead` gives for a complete body: the data and its length. -/
abbrev Found := Bytes × ℤ

/-- The branch of `ReadOnceData` for a header. -/
def readHeader (process : PacketHeaderProcess) (vfd : ℤ) (buf : Bytes) :
    Option (PacketHeaderProcess × ℤ × List Found) :=
  if process.needBufLen ≠ 4 then none
  else
    let processDataLen := min (buf.length : ℤ) process.needBufLen
    let header := buf.take processDataLen.toNat ++ process.header.drop processDataLen.toNat
    if process.needBufLen ≤ buf.length then
      some ({ process with
        status := .body
        needBufLen := int32 (ofLe header)
        header := header
        processVfd := vfd }, processDataLen, [])
    else
      some ({ process with
        needBufLen := process.needBufLen - buf.length
        header := header
        processVfd := vfd }, processDataLen, [])

/-- The branch of `ReadOnceData` for a body. -/
def readBody (process : PacketHeaderProcess) (vfd : ℤ) (buf : Bytes) :
    Option (PacketHeaderProcess × ℤ × List Found) :=
  let processDataLen := min (buf.length : ℤ) process.needBufLen
  if vfd ≠ process.processVfd ∨ processDataLen < 0 then none
  else do
    let inserted ← process.vfdBuf.insertData .requested (buf.take processDataLen.toNat) true
    if inserted.realLen ≠ processDataLen then none
    else if process.needBufLen ≤ buf.length then
      return ({ process with
        status := .header
        needBufLen := 4
        processVfd := -1
        vfdBuf := inserted.buffer }, processDataLen, [inserted.buffer.getBufHead])
    else
      return ({ process with
        needBufLen := process.needBufLen - buf.length
        vfdBuf := inserted.buffer }, processDataLen, [])

/-- `ReadOnceData`: the number of bytes it has used, and the body it has completed. -/
def readOnceData (process : PacketHeaderProcess) (vfd : ℤ) (buf : Bytes) :
    Option (PacketHeaderProcess × ℤ × List Found) :=
  match process.status with
  | .header => process.readHeader vfd buf
  | .body => process.readBody vfd buf

/-- The loop of `ReadData`. -/
def readLoop (vfd : ℤ) :
    (fuel : ℕ) → PacketHeaderProcess → Bytes → Option (PacketHeaderProcess × List Found)
  | 0, _, _ => none
  | fuel + 1, process, buf =>
      if buf.length > 0 then do
        let once ← process.readOnceData vfd buf
        let later ← readLoop vfd fuel once.1 (buf.drop once.2.1.toNat)
        return (later.1, once.2.2 ++ later.2)
      else some (process, [])

/-- `ReadData`; a turn of the loop uses a byte or ends a body. -/
def readData (process : PacketHeaderProcess) (vfd : ℤ) (buf : Bytes) :
    Option (PacketHeaderProcess × List Found) :=
  readLoop vfd (2 * buf.length + 2) process buf

/-- Successive chunks of one connection. -/
def readChunks (vfd : ℤ) :
    PacketHeaderProcess → List Bytes → Option (PacketHeaderProcess × List Found)
  | process, [] => some (process, [])
  | process, chunk :: rest => do
      let first ← process.readData vfd chunk
      let later ← readChunks vfd first.1 rest
      return (later.1, first.2 ++ later.2)

/-- `WriteData`. -/
def writeData (buf : Bytes) : Bytes := le 4 (unsigned32 buf.length) ++ buf

theorem writeData_eq {buf : Bytes} (bounded : buf.length + 4 < 2 ^ 31) :
    writeData buf = Frames.frame buf := by
  have same : unsigned32 buf.length = buf.length := by
    simp only [unsigned32]
    omega
  rw [writeData, same, Frames.frame]

/-! ## Levels of the buffer -/

/-- The recorded capacity of a buffer that has been filled up to a level. -/
def capacityAt (level : ℕ) : ℕ := 2 ^ max 12 (Nat.clog 2 level)

/--
An insert from a level to the next one returns: it adds nothing, it fits the first block, or
it exceeds the recorded capacity and makes the block grow.
-/
def InsertReturns (level next : ℕ) : Prop :=
  next = level ∨ next ≤ packetMaxLen.toNat ∨
    (capacityAt level < next ∧ next ≤ MyBuf.bufferLimit)

instance (level next : ℕ) : Decidable (InsertReturns level next) :=
  inferInstanceAs (Decidable (_ ∨ _ ∨ _))

/-- The sizes of a buffer that has been filled up to a level. -/
def roomAt (level : ℕ) : MyBuf.Room :=
  ⟨capacityAt level, max packetMaxLen.toNat level, level, level⟩

section Levels

variable {level inputLen : ℕ}

theorem capacityAt_of_le (small : level ≤ packetMaxLen.toNat) :
    capacityAt level = packetMaxLen.toNat := by
  have few : Nat.clog 2 level ≤ 12 := (Nat.clog_le_iff_le_pow (by decide)).mpr small
  rw [capacityAt, max_eq_left few]
  rfl

theorem capacityAt_of_gt (large : packetMaxLen.toNat < level) :
    capacityAt level = 2 ^ Nat.clog 2 level := by
  have many : 12 < Nat.clog 2 level := (Nat.lt_clog_iff_pow_lt (by decide)).mpr large
  rw [capacityAt, max_eq_right many.le]

theorem le_capacityAt (level : ℕ) :
    level ≤ capacityAt level ∧ packetMaxLen.toNat ≤ capacityAt level := by
  rcases le_or_gt level packetMaxLen.toNat with small | large
  · rw [capacityAt_of_le small]
    exact ⟨small, le_rfl⟩
  · rw [capacityAt_of_gt large]
    have enough := Nat.le_pow_clog (show 1 < 2 by decide) level
    exact ⟨enough, large.le.trans enough⟩

theorem inputEnd_roomAt (fits : level + inputLen ≤ capacityAt level) :
    (roomAt level).inputEnd inputLen = level + inputLen := if_pos fits

theorem takes_roomAt_iff :
    (roomAt level).Takes inputLen ↔ InsertReturns level (level + inputLen) := by
  have bounds := le_capacityAt level
  rcases le_or_gt (level + inputLen) (capacityAt level) with fits | exceeds
  · rw [MyBuf.Room.takes_of_fits fits, inputEnd_roomAt fits, InsertReturns]
    simp only [roomAt, le_max_iff]
    omega
  · rw [MyBuf.Room.takes_of_exceeds exceeds, InsertReturns]
    simp only [roomAt]
    omega

theorem insert_roomAt (returns : InsertReturns level (level + inputLen)) :
    (roomAt level).insert .requested inputLen = roomAt (level + inputLen) := by
  have bounds := le_capacityAt level
  rcases le_or_gt (level + inputLen) (capacityAt level) with fits | exceeds
  · rw [MyBuf.Room.insert_of_fits fits, inputEnd_roomAt fits]
    rcases returns with same | small | ⟨large, -⟩
    · obtain rfl : inputLen = 0 := by omega
      rfl
    · simp only [roomAt, capacityAt_of_le small, capacityAt_of_le (show level ≤ _ by omega),
        max_eq_left small, max_eq_left (show level ≤ packetMaxLen.toNat by omega)]
    · omega
  · have large : packetMaxLen.toNat < level + inputLen := by omega
    rw [MyBuf.Room.insert_of_exceeds exceeds]
    simp only [roomAt, capacityAt_of_gt large, max_eq_right large.le, MyBuf.Heap.size,
      Int.toNat_natCast]

end Levels

/-- The levels at which a list of bodies ends that are inserted one after the other. -/
def ends (level : ℕ) : List Bytes → List ℕ
  | [] => []
  | body :: rest => (level + body.length) :: ends (level + body.length) rest

/-- The number of bytes in the buffer after the input. -/
def stored (earlier : Bytes) (pusher : Pusher) (input : Bytes) : ℕ :=
  earlier.length + (pusher.pushAll input).2.flatten.length +
    (pusher.pushAll input).1.body.length

/-- The levels after the inserts that reading the input makes: behind each body, and at the end. -/
def levels (earlier : Bytes) (pusher : Pusher) (input : Bytes) : List ℕ :=
  ends earlier.length (pusher.pushAll input).2 ++ [stored earlier pusher input]

/-- All inserts that reading the input makes return. -/
def InsertsReturn (earlier : Bytes) (pusher : Pusher) (input : Bytes) : Prop :=
  List.IsChain InsertReturns ((earlier.length + pusher.body.length) :: levels earlier pusher input)

instance (earlier : Bytes) (pusher : Pusher) (input : Bytes) :
    Decidable (InsertsReturn earlier pusher input) :=
  inferInstanceAs (Decidable (List.IsChain _ _))

theorem insertsReturn_nil (earlier : Bytes) (pusher : Pusher) :
    InsertsReturn earlier pusher [] := by
  rw [InsertsReturn, levels, Pusher.pushAll, ends, List.nil_append, List.isChain_pair]
  exact Or.inl rfl

/-! ## Refinement -/

/-- Complete bodies as `GetBufHead` shows them: each behind everything that was read before. -/
def heads (earlier : Bytes) : List Bytes → List Found
  | [] => []
  | body :: rest =>
      (earlier ++ body, ((earlier ++ body).length : ℤ)) :: heads (earlier ++ body) rest

theorem heads_append (earlier : Bytes) (first second : List Bytes) :
    heads earlier (first ++ second) =
      heads earlier first ++ heads (earlier ++ first.flatten) second := by
  induction first generalizing earlier with
  | nil => simp [heads]
  | cons body rest ih => simp [heads, ih]

@[simp]
theorem length_heads (earlier : Bytes) (bodies : List Bytes) :
    (heads earlier bodies).length = bodies.length := by
  induction bodies generalizing earlier with
  | nil => rfl
  | cons body rest ih => simp [heads, ih]

/-- The status and `_NeedBufLen` show where the pusher is; it is not inside a header. -/
def AtPlace (process : PacketHeaderProcess) (vfd : ℤ) (pusher : Pusher) : Prop :=
  match pusher.need with
  | none => pusher = Pusher.initial ∧ process.status = .header ∧ process.needBufLen = 4
  | some size => pusher.header = [] ∧ process.status = .body ∧ process.needBufLen = size ∧
      process.processVfd = vfd

/-- The process is where the pusher is, and its buffer holds all bodies read so far. -/
structure Refines (process : PacketHeaderProcess) (vfd : ℤ) (pusher : Pusher) (earlier : Bytes) :
    Prop where
  stores : process.vfdBuf.Stores (earlier ++ pusher.body)
  room : process.vfdBuf.room = roomAt (earlier.length + pusher.body.length)
  headerLength : process.header.length = 4
  place : process.AtPlace vfd pusher

theorem create_refines {header : Bytes} (whole : header.length = 4) (vfd : ℤ) :
    (create header).Refines vfd Pusher.initial [] where
  stores := MyBuf.create_stores (show 12 ≤ 30 by decide)
  room := by
    show MyBuf.Room.create 4096 = roomAt 0
    decide
  headerLength := whole
  place := ⟨rfl, rfl, rfl⟩

/-- The process has read a header as a negative number. -/
structure Overruns (process : PacketHeaderProcess) (pusher : Pusher) : Prop where
  behind : ∃ size, 2 ^ 31 ≤ size ∧ pusher = ⟨[], some size, []⟩
  status : process.status = .body
  need : process.needBufLen < 0

/-- The process is where the pusher is, possibly behind a header that it has misread. -/
inductive Shadows (process : PacketHeaderProcess) (vfd : ℤ) (pusher : Pusher) (earlier : Bytes) :
    Prop
  | refines (refines : process.Refines vfd pusher earlier)
      (small : ∀ size, pusher.need = some size → size < 2 ^ 31)
  | overruns (overruns : process.Overruns pusher)

theorem create_shadows {header : Bytes} (whole : header.length = 4) (vfd : ℤ) :
    (create header).Shadows vfd Pusher.initial [] := by
  refine .refines (create_refines whole vfd) ?_
  intro size needed
  cases needed

/-- Behind a header that an `int` can represent there is no difference. -/
theorem Shadows.refines_of_small {process : PacketHeaderProcess} {vfd : ℤ} {pusher : Pusher}
    {earlier : Bytes} (shadows : process.Shadows vfd pusher earlier)
    (small : ∀ size, pusher.need = some size → size < 2 ^ 31) :
    process.Refines vfd pusher earlier := by
  cases shadows with
  | refines refines _ => exact refines
  | overruns overruns =>
      rcases overruns.behind with ⟨size, large, rfl⟩
      exact absurd (small size rfl) (not_lt.mpr large)

theorem Overruns.readOnceData_eq_none {process : PacketHeaderProcess} {pusher : Pusher}
    (overruns : process.Overruns pusher) (vfd : ℤ) (buf : Bytes) :
    process.readOnceData vfd buf = none := by
  have need := overruns.need
  have negative : min (buf.length : ℤ) process.needBufLen < 0 := by omega
  simp only [readOnceData, overruns.status, readBody, if_pos (Or.inr negative)]

namespace Refines

variable {process : PacketHeaderProcess} {vfd : ℤ} {pusher : Pusher} {earlier : Bytes}

theorem status_header (refines : process.Refines vfd Pusher.initial earlier) :
    process.status = .header ∧ process.needBufLen = 4 :=
  refines.place.2

/-- A header that arrives in one piece. -/
theorem readHeader_eq (refines : process.Refines vfd Pusher.initial earlier) {buf : Bytes}
    (whole : 4 ≤ buf.length) :
    ∃ next, process.readOnceData vfd buf = some (next, 4, []) ∧
      next.Shadows vfd ⟨[], some (ofLe (buf.take 4)), []⟩ earlier := by
  rcases refines.status_header with ⟨status, need⟩
  have used : min (buf.length : ℤ) 4 = 4 := by omega
  have header : buf.take 4 ++ process.header.drop 4 = buf.take 4 := by
    rw [List.drop_of_length_le refines.headerLength.le, List.append_nil]
  have bounded : ofLe (buf.take 4) < 256 ^ 4 := ofLe_take_lt
  simp only [readOnceData, status, readHeader, need, used, ne_eq, not_true_eq_false, if_false,
    show (4 : ℤ).toNat = 4 from rfl, header, if_pos (show (4 : ℤ) ≤ buf.length by omega)]
  refine ⟨_, rfl, ?_⟩
  rcases lt_or_ge (ofLe (buf.take 4)) (2 ^ 31) with small | large
  · have value : int32 (ofLe (buf.take 4)) = ofLe (buf.take 4) :=
      int32_eq_self ⟨by omega, by omega⟩
    refine .refines ?_ (fun size needed => Option.some.inj needed ▸ small)
    exact {
      stores := refines.stores
      room := refines.room
      headerLength := by simp [whole]
      place := ⟨rfl, rfl, value, rfl⟩ }
  · refine .overruns ⟨⟨_, large, rfl⟩, rfl, ?_⟩
    simp only [int32]
    omega

/-- A piece of a body that the buffer takes. -/
theorem insertData_eq (refines : process.Refines vfd pusher earlier) {piece : Bytes}
    (returns : InsertReturns (earlier.length + pusher.body.length)
      (earlier.length + pusher.body.length + piece.length)) :
    ∃ inserted, process.vfdBuf.insertData .requested piece true = some inserted ∧
      inserted.realLen = piece.length ∧
      inserted.buffer.Stores (earlier ++ (pusher.body ++ piece)) ∧
      inserted.buffer.room = roomAt (earlier.length + (pusher.body ++ piece).length) := by
  have takes : process.vfdBuf.room.Takes piece.length := by
    rw [refines.room]
    exact takes_roomAt_iff.mpr returns
  rcases refines.stores.insertData_eq .requested takes with
    ⟨inserted, returned, stores, realLen, room⟩
  refine ⟨inserted, returned, realLen, by rwa [← List.append_assoc], ?_⟩
  rw [room, refines.room, insert_roomAt returns, List.length_append, Nat.add_assoc]

theorem insertData_eq_none (refines : process.Refines vfd pusher earlier) {piece : Bytes}
    (overrun : ¬InsertReturns (earlier.length + pusher.body.length)
      (earlier.length + pusher.body.length + piece.length)) :
    process.vfdBuf.insertData .requested piece true = none := by
  apply refines.stores.insertData_eq_none
  rw [refines.room, takes_roomAt_iff]
  exact overrun

/-- The rest of a body, which may be followed by more. -/
theorem readBody_whole {size : ℕ} {body : Bytes}
    (refines : process.Refines vfd ⟨[], some size, body⟩ earlier) {buf : Bytes}
    (whole : size ≤ buf.length)
    (returns : InsertReturns (earlier.length + body.length)
      (earlier.length + body.length + size)) :
    ∃ next, process.readOnceData vfd buf =
        some (next, (size : ℤ), heads earlier [body ++ buf.take size]) ∧
      next.Refines vfd Pusher.initial (earlier ++ (body ++ buf.take size)) := by
  rcases refines.place with ⟨-, status, need, samePeer⟩
  have used : min (buf.length : ℤ) size = size := by omega
  have length : (buf.take size).length = size := by simp [whole]
  have fitting : InsertReturns (earlier.length + body.length)
      (earlier.length + body.length + (buf.take size).length) := by
    rwa [length]
  rcases refines.insertData_eq fitting with ⟨inserted, returned, realLen, stores, room⟩
  rw [length] at realLen
  have defined : ¬(vfd ≠ process.processVfd ∨ (size : ℤ) < 0) := by
    rw [samePeer]
    omega
  simp only [readOnceData, status, readBody, need, used, if_neg defined, Int.toNat_natCast,
    returned, Option.bind_eq_bind, Option.bind_some, realLen, ne_eq, not_true_eq_false, if_false,
    if_pos (show (size : ℤ) ≤ buf.length by omega), stores.getBufHead_eq]
  refine ⟨_, rfl, ?_⟩
  exact {
    stores := by simpa [Pusher.initial] using stores
    room := by
      rw [List.length_append]
      exact room
    headerLength := refines.headerLength
    place := ⟨rfl, rfl, rfl⟩ }

/-- A part of a body that leaves something to wait for. -/
theorem readBody_part {size : ℕ} {body : Bytes}
    (refines : process.Refines vfd ⟨[], some size, body⟩ earlier) {buf : Bytes}
    (short : buf.length < size)
    (returns : InsertReturns (earlier.length + body.length)
      (earlier.length + body.length + buf.length)) :
    ∃ next, process.readOnceData vfd buf = some (next, (buf.length : ℤ), []) ∧
      next.Refines vfd ⟨[], some (size - buf.length), body ++ buf⟩ earlier := by
  rcases refines.place with ⟨-, status, need, samePeer⟩
  have used : min (buf.length : ℤ) size = buf.length := by omega
  rcases refines.insertData_eq returns with ⟨inserted, returned, realLen, stores, room⟩
  have defined : ¬(vfd ≠ process.processVfd ∨ (buf.length : ℤ) < 0) := by
    rw [samePeer]
    omega
  simp only [readOnceData, status, readBody, need, used, if_neg defined, Int.toNat_natCast,
    List.take_length, returned, Option.bind_eq_bind, Option.bind_some, realLen, ne_eq,
    not_true_eq_false, if_false, if_neg (show ¬(size : ℤ) ≤ buf.length by omega)]
  refine ⟨_, rfl, ?_⟩
  exact {
    stores := stores
    room := room
    headerLength := refines.headerLength
    place := ⟨rfl, rfl, by simp only; omega, samePeer⟩ }

theorem readBody_eq_none {size : ℕ} {body : Bytes}
    (refines : process.Refines vfd ⟨[], some size, body⟩ earlier) {buf : Bytes}
    (overrun : ¬InsertReturns (earlier.length + body.length)
      (earlier.length + body.length + min buf.length size)) :
    process.readOnceData vfd buf = none := by
  rcases refines.place with ⟨-, status, need, samePeer⟩
  have stuck : process.vfdBuf.insertData .requested (buf.take (min buf.length size)) true =
      none := by
    apply refines.insertData_eq_none
    rwa [List.length_take, Nat.min_eq_left (Nat.min_le_left _ _)]
  have used : (min (buf.length : ℤ) size).toNat = min buf.length size := by omega
  simp only [readOnceData, status, readBody, need, used, stuck, Option.bind_eq_bind,
    Option.bind_none, ite_self]

end Refines

end PacketHeaderProcess

end SimpleModule
