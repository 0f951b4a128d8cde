import SimpleModule.Lib.Memory
import SimpleModule.Packet.HeaderProcess

/-!
# Headers in several pieces

`ReadOnceData` copies a piece of a header to `&(_Header) + (4-_NeedBufLen)`.  The pointer is
one to `int`, so that a piece behind the first one goes to `_ProcessVfd` or to one of the
halves of the pointer `_VfdBuf`.

This file has the object as the bytes from `_Header` on.  On headers in one piece it agrees
with `PacketHeaderProcess`, and this is the only way to cut a header that is read
correctly whatever the object contains.
-/

namespace SimpleModule

open Octets

/--
An object of class `PacketHeaderProcess` in memory: `cells` are its bytes from `_Header`
on, with `_ProcessVfd` at 4 and `_VfdBuf` at 8.
-/
structure PacketHeaderMemory where
  status : PacketStatus
  needBufLen : ℤ
  cells : ℤ → Byte

namespace PacketHeaderMemory

/-- The bytes of `_Header`. -/
def header (object : PacketHeaderMemory) : Bytes := Memory.read object.cells 0 4

/-- The bytes of `_ProcessVfd`. -/
def processVfd (object : PacketHeaderMemory) : Bytes := Memory.read object.cells 4 4

/-- The bytes of the pointer `_VfdBuf`. -/
def vfdBuf (object : PacketHeaderMemory) : Bytes := Memory.read object.cells 8 8

/-- The branch of `ReadOnceData` for a header. -/
def readHeader (object : PacketHeaderMemory) (vfd : ℤ) (buf : Bytes) : PacketHeaderMemory × ℤ :=
  let assigned := Memory.write object.cells 4 (le 4 (unsigned32 vfd))
  let headerStart := 4 * (4 - object.needBufLen)
  let processDataLen := min (buf.length : ℤ) object.needBufLen
  let cells := Memory.write assigned headerStart (buf.take processDataLen.toNat)
  if object.needBufLen ≤ buf.length then
    (⟨.body, int32 (ofLe (Memory.read cells 0 4)), cells⟩, processDataLen)
  else (⟨object.status, object.needBufLen - buf.length, cells⟩, processDataLen)

/-- The loop of `ReadData`, as far as it reads headers. -/
def readLoop (vfd : ℤ) : (fuel : ℕ) → PacketHeaderMemory → Bytes → Option PacketHeaderMemory
  | 0, _, _ => none
  | fuel + 1, object, buf =>
      if buf.length > 0 then
        match object.status with
        | .header =>
            readLoop vfd fuel (object.readHeader vfd buf).1
              (buf.drop (object.readHeader vfd buf).2.toNat)
        | .body => none
      else some object

def readData (object : PacketHeaderMemory) (vfd : ℤ) (buf : Bytes) : Option PacketHeaderMemory :=
  readLoop vfd (buf.length + 1) object buf

/-- The pieces of a header in successive calls. -/
def readPieces (vfd : ℤ) : PacketHeaderMemory → List Bytes → Option PacketHeaderMemory
  | object, [] => some object
  | object, piece :: rest => do
      let next ← object.readData vfd piece
      readPieces vfd next rest

/-! ## The object and the process -/

/-- The object has the fields of the process, and its buffer is at the given address. -/
structure Represents (object : PacketHeaderMemory) (process : PacketHeaderProcess)
    (address : Bytes) : Prop where
  status : object.status = process.status
  needBufLen : object.needBufLen = process.needBufLen
  header : object.header = process.header
  processVfd : object.processVfd = le 4 (unsigned32 process.processVfd)
  vfdBuf : object.vfdBuf = address

section First

variable (cells : ℤ → Byte) (vfd : ℤ) {piece : Bytes}

/-- The cells after a piece is copied to the beginning of `_Header`. -/
def firstCopy (cells : ℤ → Byte) (vfd : ℤ) (piece : Bytes) : ℤ → Byte :=
  Memory.write (Memory.write cells 4 (le 4 (unsigned32 vfd))) 0 piece

theorem header_firstCopy (short : piece.length ≤ 4) :
    Memory.read (firstCopy cells vfd piece) 0 4 =
      piece ++ (Memory.read cells 0 4).drop piece.length := by
  have split : (4 : ℕ) = piece.length + (4 - piece.length) := by omega
  have old : Memory.read cells (0 + (piece.length : ℕ)) (4 - piece.length) =
      (Memory.read cells 0 4).drop piece.length := by
    conv_rhs => rw [split, Memory.read_add, List.drop_left' (Memory.length_read _ _ _)]
  conv_lhs => rw [split, Memory.read_add]
  rw [firstCopy, Memory.read_write, Memory.read_write_outside (Or.inr (by omega)),
    Memory.read_write_outside (Or.inl (by omega)), old]

theorem processVfd_firstCopy (short : piece.length ≤ 4) :
    Memory.read (firstCopy cells vfd piece) 4 4 = le 4 (unsigned32 vfd) := by
  have stored := Memory.read_write cells 4 (le 4 (unsigned32 vfd))
  rw [length_le] at stored
  rw [firstCopy, Memory.read_write_outside (Or.inr (by omega)), stored]

theorem vfdBuf_firstCopy (short : piece.length ≤ 4) :
    Memory.read (firstCopy cells vfd piece) 8 8 = Memory.read cells 8 8 := by
  rw [firstCopy, Memory.read_write_outside (Or.inr (by omega)),
    Memory.read_write_outside (Or.inr (by simp))]

end First

theorem readHeader_whole {object : PacketHeaderMemory} (fresh : object.needBufLen = 4) (vfd : ℤ)
    {buf : Bytes} (whole : 4 ≤ buf.length) :
    object.readHeader vfd buf =
      (⟨.body, int32 (ofLe (buf.take 4)), firstCopy object.cells vfd (buf.take 4)⟩, 4) := by
  have start : 4 * (4 - (4 : ℤ)) = 0 := by norm_num
  have used : min (buf.length : ℤ) 4 = 4 := by omega
  have piece : (buf.take 4).length = 4 := by simp [whole]
  have copied := header_firstCopy object.cells vfd piece.le
  rw [piece, List.drop_of_length_le (Memory.length_read _ _ _).le, List.append_nil] at copied
  simp only [readHeader, fresh, start, used, if_pos (show (4 : ℤ) ≤ buf.length by omega),
    show (4 : ℤ).toNat = 4 from rfl]
  rw [← firstCopy, copied]

theorem readHeader_short {object : PacketHeaderMemory} (fresh : object.needBufLen = 4) (vfd : ℤ)
    {buf : Bytes} (short : buf.length < 4) :
    object.readHeader vfd buf =
      (⟨object.status, 4 - buf.length, firstCopy object.cells vfd buf⟩, (buf.length : ℤ)) := by
  have start : 4 * (4 - (4 : ℤ)) = 0 := by norm_num
  have used : min (buf.length : ℤ) 4 = buf.length := by omega
  simp only [readHeader, fresh, start, used, if_neg (show ¬(4 : ℤ) ≤ buf.length by omega),
    Int.toNat_natCast, List.take_length]
  rw [← firstCopy]

/-- As long as no header is split, the object goes on like the process. -/
theorem Represents.readHeader {object : PacketHeaderMemory} {process next : PacketHeaderProcess}
    {address buf : Bytes} {vfd used : ℤ} {found : List PacketHeaderProcess.Found}
    (represents : object.Represents process address)
    (returned : process.readHeader vfd buf = some (next, used, found)) :
    (object.readHeader vfd buf).2 = used ∧
      (object.readHeader vfd buf).1.Represents next address := by
  rw [PacketHeaderProcess.readHeader] at returned
  by_cases split : process.needBufLen ≠ 4
  · rw [if_pos split] at returned
    cases returned
  · rw [not_not] at split
    have headerLength : process.header.length = 4 := by
      rw [← represents.header]
      exact Memory.length_read _ _ _
    have old : Memory.read object.cells 0 4 = process.header := represents.header
    have fresh := represents.needBufLen.trans split
    simp only [split, ne_eq, not_true_eq_false, if_false] at returned
    by_cases whole : 4 ≤ buf.length
    · have used_eq : (min (buf.length : ℤ) 4).toNat = 4 := by omega
      have cut : (buf.take 4).length ≤ 4 := by simp
      have nothing : process.header.drop 4 = [] := List.drop_of_length_le headerLength.le
      have piece : (buf.take 4).length = 4 := by simp [whole]
      rw [if_pos (by omega), used_eq, nothing, List.append_nil] at returned
      cases returned
      rw [readHeader_whole fresh vfd whole]
      refine ⟨by simp only; omega, ?_⟩
      exact {
        status := rfl
        needBufLen := rfl
        header := by
          have copied := header_firstCopy object.cells vfd cut
          rwa [piece, old, nothing, List.append_nil] at copied
        processVfd := processVfd_firstCopy _ vfd cut
        vfdBuf := (vfdBuf_firstCopy _ vfd cut).trans represents.vfdBuf }
    · have used_eq : (min (buf.length : ℤ) 4).toNat = buf.length := by omega
      have cut : buf.length ≤ 4 := by omega
      rw [if_neg (by omega), used_eq, List.take_length] at returned
      cases returned
      rw [readHeader_short fresh vfd (not_le.mp whole)]
      refine ⟨by simp only; omega, ?_⟩
      exact {
        status := represents.status
        needBufLen := rfl
        header := (header_firstCopy _ vfd cut).trans (by rw [old])
        processVfd := processVfd_firstCopy _ vfd cut
        vfdBuf := (vfdBuf_firstCopy _ vfd cut).trans represents.vfdBuf }

/-! ## Later pieces -/

/-- A piece behind the first one is not copied into `_Header`. -/
theorem header_readHeader_later {object : PacketHeaderMemory} (later : object.needBufLen ≤ 3)
    (vfd : ℤ) (buf : Bytes) : (object.readHeader vfd buf).1.header = object.header := by
  have outside : Memory.read (Memory.write (Memory.write object.cells 4 (le 4 (unsigned32 vfd)))
      (4 * (4 - object.needBufLen))
      (buf.take (min (buf.length : ℤ) object.needBufLen).toNat)) 0 4 = object.header := by
    rw [Memory.read_write_outside (Or.inl (by omega)),
      Memory.read_write_outside (Or.inl (by norm_num))]
    rfl
  rw [readHeader]
  split_ifs with whole
  · exact outside
  · exact outside

/-- The object waits for a later piece of a header, or for a body. -/
def PastFirst (object : PacketHeaderMemory) : Prop :=
  object.status = .header → object.needBufLen ≤ 3

theorem PastFirst.readHeader {object : PacketHeaderMemory} (later : object.needBufLen ≤ 3)
    (vfd : ℤ) (buf : Bytes) : (object.readHeader vfd buf).1.PastFirst := by
  rw [PacketHeaderMemory.readHeader]
  split_ifs with whole
  · intro status
    cases status
  · intro status
    simp only
    omega

theorem PastFirst.readLoop {vfd : ℤ} {fuel : ℕ} {object final : PacketHeaderMemory} {buf : Bytes}
    (past : object.PastFirst) (ended : readLoop vfd fuel object buf = some final) :
    final.PastFirst ∧ final.header = object.header := by
  induction fuel generalizing object buf with
  | zero => cases ended
  | succ fuel ih =>
      rw [PacketHeaderMemory.readLoop] at ended
      split_ifs at ended with unread
      · cases status : object.status with
        | header =>
            rw [status] at ended
            have later := past status
            rcases ih (PastFirst.readHeader later vfd buf) ended with ⟨finalPast, same⟩
            exact ⟨finalPast, same.trans (header_readHeader_later later vfd buf)⟩
        | body =>
            rw [status] at ended
            cases ended
      · cases ended
        exact ⟨past, rfl⟩

theorem PastFirst.readPieces {vfd : ℤ} {pieces : List Bytes} {object final : PacketHeaderMemory}
    (past : object.PastFirst) (ended : readPieces vfd object pieces = some final) :
    final.header = object.header := by
  induction pieces generalizing object with
  | nil =>
      cases ended
      rfl
  | cons piece rest ih =>
      rw [PacketHeaderMemory.readPieces, Option.bind_eq_bind, Option.bind_eq_some_iff] at ended
      rcases ended with ⟨next, first, ended⟩
      rcases past.readLoop first with ⟨nextPast, same⟩
      exact (ih nextPast ended).trans same

/-! ## Cuttings of a header -/

/-- A chunk that a header uses up is read in one turn. -/
theorem readData_once {object : PacketHeaderMemory} (status : object.status = .header) {vfd : ℤ}
    {piece : Bytes} (nonempty : piece ≠ [])
    (used : (object.readHeader vfd piece).2 = piece.length) :
    object.readData vfd piece = some (object.readHeader vfd piece).1 := by
  have unread : piece.length > 0 := List.length_pos_iff.mpr nonempty
  rw [readData, readLoop, if_pos unread, status]
  simp only [used, Int.toNat_natCast, List.drop_length]
  obtain ⟨left, size⟩ : ∃ left, piece.length = left + 1 := ⟨piece.length - 1, by omega⟩
  rw [size, readLoop, List.length_nil, if_neg (lt_irrefl 0)]

/--
After the pieces of a header the object is ready for the body that the header announces,
and the buffer is where it was.
-/
def Reassembles (object : PacketHeaderMemory) (vfd : ℤ) (pieces : List Bytes) : Prop :=
  ∃ final, readPieces vfd object pieces = some final ∧
    final.header = pieces.flatten ∧ final.status = .body ∧
    final.needBufLen = int32 (ofLe pieces.flatten) ∧
    final.processVfd = le 4 (unsigned32 vfd) ∧ final.vfdBuf = object.vfdBuf

theorem reassembles_whole {object : PacketHeaderMemory} (status : object.status = .header)
    (fresh : object.needBufLen = 4) (vfd : ℤ) {header : Bytes} (whole : header.length = 4) :
    object.Reassembles vfd [header] := by
  have nonempty : header ≠ [] := List.ne_nil_of_length_pos (by omega)
  have read := readHeader_whole fresh vfd whole.ge
  rw [List.take_of_length_le whole.le] at read
  have once := readData_once status nonempty (by rw [read, whole]; rfl)
  rw [read] at once
  refine ⟨_, by rw [readPieces, once]; rfl, ?_⟩
  rw [List.flatten_singleton]
  refine ⟨?_, rfl, rfl, processVfd_firstCopy _ vfd whole.le, vfdBuf_firstCopy _ vfd whole.le⟩
  have copied := header_firstCopy object.cells vfd whole.le
  rwa [whole, List.drop_of_length_le (Memory.length_read _ _ _).le, List.append_nil] at copied

/-- Of a header in several pieces only the first one gets into `_Header`. -/
theorem header_readPieces {object final : PacketHeaderMemory} (status : object.status = .header)
    (fresh : object.needBufLen = 4) {vfd : ℤ} {first : Bytes} {rest : List Bytes}
    (nonempty : first ≠ []) (short : first.length < 4)
    (ended : readPieces vfd object (first :: rest) = some final) :
    final.header = first ++ object.header.drop first.length := by
  have read := readHeader_short fresh vfd short
  have once := readData_once status nonempty (by rw [read])
  rw [read] at once
  rw [readPieces, once] at ended
  have positive := List.length_pos_iff.mpr nonempty
  have past : PastFirst ⟨object.status, 4 - first.length, firstCopy object.cells vfd first⟩ := by
    intro _
    simp only
    omega
  exact (past.readPieces ended).trans (header_firstCopy _ vfd short.le)

/-- An object in which the bytes of `_Header` are the given ones. -/
def withHeader (header : Bytes) : PacketHeaderMemory where
  status := .header
  needBufLen := 4
  cells := Memory.write (fun _ => 0) 0 header

/--
A header is put together correctly from its pieces, whatever the object contains, exactly
if it comes in one piece.
-/
theorem reassembles_iff_one_piece {pieces : List Bytes} (nonempty : ∀ piece ∈ pieces, piece ≠ [])
    (whole : pieces.flatten.length = 4) :
    (∀ (object : PacketHeaderMemory) (vfd : ℤ), object.status = .header →
        object.needBufLen = 4 → object.Reassembles vfd pieces) ↔
      pieces.length = 1 := by
  constructor
  · intro reassembles
    rcases pieces with _ | ⟨first, _ | ⟨second, rest⟩⟩
    · cases whole
    · rfl
    · exfalso
      have firstSome : first ≠ [] := nonempty first (by simp)
      have secondSome := List.length_pos_iff.mpr (nonempty second (by simp))
      -- an object whose `_Header` differs from the header in every byte
      let flat := (first :: second :: rest).flatten
      rcases reassembles (withHeader (flat.map (· + 1))) 0 rfl rfl with ⟨final, ended, header, -⟩
      have short : first.length < 4 := by
        simp only [List.flatten_cons, List.length_append] at whole
        omega
      have old : (withHeader (flat.map (· + 1))).header = flat.map (· + 1) := by
        have stored := Memory.read_write (fun _ => (0 : Byte)) 0 (flat.map (· + 1))
        rwa [List.length_map, whole] at stored
      rw [header_readPieces rfl rfl firstSome short ended, old] at header
      have same : (flat.drop first.length).map (· + 1) = flat.drop first.length := by
        rw [List.map_drop]
        exact List.append_cancel_left (header.trans (by simp [flat]))
      rcases left : flat.drop first.length with _ | ⟨byte, later⟩
      · have := congrArg List.length left
        rw [List.length_drop, show flat.length = 4 from whole, List.length_nil] at this
        omega
      · rw [left, List.map_cons, List.cons.injEq] at same
        exact absurd same.1 (by simp)
  · intro one
    rcases List.length_eq_one_iff.mp one with ⟨header, rfl⟩
    rw [List.flatten_singleton] at whole
    intro object vfd status fresh
    exact reassembles_whole status fresh vfd whole

theorem reassembles_one_piece :
    (∀ piece ∈ [([5, 0, 0, 0] : Bytes)], piece ≠ []) ∧
      [([5, 0, 0, 0] : Bytes)].flatten.length = 4 ∧
      (withHeader [1, 2, 3, 4]).Reassembles 7 [[5, 0, 0, 0]] := by
  have nonempty : ∀ piece ∈ [([5, 0, 0, 0] : Bytes)], piece ≠ [] := by simp
  exact ⟨nonempty, rfl, (reassembles_iff_one_piece nonempty rfl).mpr rfl _ 7 rfl rfl⟩

/--
Behind a first piece of one byte, three more bytes go to `_ProcessVfd`, and two more bytes
behind two pieces of one byte go to the pointer to the buffer.
-/
theorem not_reassembles_two_pieces :
    ¬(withHeader [1, 2, 3, 4]).Reassembles 7 [[5], [0, 0, 0]] ∧
      (readPieces 7 (withHeader [1, 2, 3, 4]) [[5], [0, 0, 0]]).map
          (fun final => (final.header, final.needBufLen, final.processVfd)) =
        some ([5, 2, 3, 4], 67305989, [0, 0, 0, 0]) ∧
      (readPieces 7 (withHeader [1, 2, 3, 4]) [[5], [0], [9, 9]]).map vfdBuf =
        some [9, 9, 0, 0, 0, 0, 0, 0] := by
  refine ⟨?_, by decide +kernel, by decide +kernel⟩
  rintro ⟨final, ended, header, -⟩
  have kept := header_readPieces rfl rfl (by simp) (by simp) ended
  rw [header] at kept
  exact absurd kept (by decide +kernel)

end PacketHeaderMemory

end SimpleModule
