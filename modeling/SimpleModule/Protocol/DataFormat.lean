import SimpleModule.Protocol.Lua

/-!
# Argument formats

Each argument of a protocol has a format object that packs a Lua value into the output
buffer and unpacks it from the input.  `pack` appends the bytes it writes to the output
buffer of the state and returns their number, or zero if they do not fit; `unpack`
pushes the value it reads and returns the number of bytes read, or zero.  Reading a
byte behind the end of the input is a fault.

A table format is a list of opcodes that is run against the stack.  Format objects are
never changed once built, so they are trees here; the name and the hash string of an
object are kept by the registry.
-/

namespace SimpleModule

open Octets Exits

mutual

/-- The subclasses of `fcall_base_arg`. -/
inductive FcallArg
  | number
  | byte
  | word
  | dword
  | string
  | table (opcodes : List TableOpcode)
  | array (basePacker : FcallArg) (size : ℤ)

/-- The class `table_opcode`; a key is absent if it was neither a string nor a number. -/
inductive TableOpcode
  | tbBegin (keyRef : Option LuaKey)
  | tbEnd
  | pushValue (keyRef : LuaKey) (valueArg : FcallArg)

end

namespace FcallArg

/-- The macro `check_buf` in front of the rest of a function. -/
def checkBuf (dataLen bufLen : ℤ) (rest : LuaM ℤ) : LuaM ℤ :=
  if dataLen > bufLen then pure 0 else rest

/-- Bytes read from the input. -/
def fetch (buf : Bytes) (offset count : ℕ) : LuaM Bytes :=
  if offset + count ≤ buf.length then pure ((buf.drop offset).take count) else .exit .fault

/-- The treatment of a nested `pack`: give up, or drop the packed value and go on. -/
def afterPack (top curUsed : ℤ) (rest : LuaM ℤ) : LuaM ℤ :=
  if curUsed = 0 then do
    Lua.settop top
    return 0
  else do
    Lua.pop 1
    rest

/-- The treatment of a nested `unpack`: give up, or store the value in a table and go on. -/
def afterUnpack (top curReaded index : ℤ) (rest : LuaM ℤ) : LuaM ℤ :=
  if curReaded = 0 then do
    Lua.settop top
    return 0
  else do
    Lua.rawset index
    rest

/-! ## Numbers and strings -/

/-- The number of bytes that `fcall_number_arg::pack` uses for an absolute value. -/
def numberLen (data : ℕ) : ℕ :=
  if data ≤ 0xff then 1 else if data ≤ 0xffff then 2 else if data ≤ 0xffffff then 3 else 4

/-- The bit fields of `number_type`. -/
def numberType (isNegative : Bool) (len : ℕ) : Byte :=
  UInt8.ofNat ((if isNegative then 1 else 0) + 2 * len)

def packNumber (dataIn bufLen : ℤ) : LuaM ℤ := do
  let num := number2int (← Lua.checknumber dataIn)
  let data := unsigned32 (if num < 0 then -num else num)
  let len := numberLen data
  checkBuf (1 + len) bufLen do
    Lua.emit [numberType (num < 0) len]
    Lua.emit (le len data)
    return 1 + len

def unpackNumber (buf : Bytes) (bufLen : ℤ) : LuaM ℤ :=
  checkBuf 1 bufLen do
    let dataT := ofLe (← fetch buf 0 1)
    let len := dataT / 2
    if len ≤ 0 ∨ len ≥ 5 then return 0
    else
      checkBuf (1 + len) bufLen do
        let data := int32 (ofLe (← fetch buf 1 len))
        Lua.push (.number (if dataT % 2 = 1 then int32 (-data) else data : ℤ))
        return 1 + len

/-- `pack` of the number formats with a fixed width. -/
def packFixed (width : ℕ) (dataIn bufLen : ℤ) : LuaM ℤ := do
  let num := number2int (← Lua.checknumber dataIn)
  checkBuf width bufLen do
    Lua.emit (le width (unsigned32 num))
    return width

/-- `unpack` of the number formats with a fixed width; `read` gives the bits their type. -/
def unpackFixed (width : ℕ) (read : ℤ → ℤ) (buf : Bytes) (bufLen : ℤ) : LuaM ℤ :=
  checkBuf width bufLen do
    let data := ofLe (← fetch buf 0 width)
    Lua.push (.number (read data : ℤ))
    return width

def packByte : ℤ → ℤ → LuaM ℤ := packFixed 1

def unpackByte : Bytes → ℤ → LuaM ℤ := unpackFixed 1 id

def packWord : ℤ → ℤ → LuaM ℤ := packFixed 2

def unpackWord : Bytes → ℤ → LuaM ℤ := unpackFixed 2 int16

def packDword : ℤ → ℤ → LuaM ℤ := packFixed 4

def unpackDword : Bytes → ℤ → LuaM ℤ := unpackFixed 4 int32

def packString (numerals : Numerals) (dataIn bufLen : ℤ) : LuaM ℤ := do
  let data ← Lua.checklstring numerals dataIn
  let strId := int32 (int32 data.length + 1)
  if strId ≤ 0xff then
    checkBuf (int32 (data.length + 1)) bufLen do
      Lua.emit (le 1 (unsigned32 strId))
      Lua.emit data
      return int32 (data.length + 1)
  else if strId ≤ 0xffff then
    checkBuf (int32 (data.length + 3)) bufLen do
      Lua.emit [0]
      Lua.emit (le 2 (unsigned32 strId))
      Lua.emit data
      return int32 (data.length + 3)
  else return 0

/-- A string whose length field is followed by `strId - 1` bytes from `offset` on. -/
def unpackChars (buf : Bytes) (bufLen : ℤ) (offset strId : ℕ) : LuaM ℤ :=
  if strId = 0 then pure 0
  else
    checkBuf (offset + (strId - 1 : ℕ)) bufLen do
      Lua.push (.string (← fetch buf offset (strId - 1)))
      return offset + (strId - 1 : ℕ)

def unpackString (buf : Bytes) (bufLen : ℤ) : LuaM ℤ :=
  checkBuf 1 bufLen do
    let strId := ofLe (← fetch buf 0 1)
    if strId > 0 then
      if strId = 1 then
        Lua.push (.string [])
        return 1
      else unpackChars buf bufLen 1 strId
    else
      checkBuf 3 bufLen do
        let strId := ofLe (← fetch buf 1 2)
        unpackChars buf bufLen 3 strId

/-! ## Arrays -/

/-- The loop of `fcall_array_arg::pack` over the elements from position `i` on. -/
def packElements (packBase : ℤ → ℤ → LuaM ℤ) (top dataIn bufLen : ℤ) :
    (count : ℕ) → (i usedLen : ℤ) → LuaM ℤ
  | 0, _, usedLen => pure usedLen
  | count + 1, i, usedLen => do
      Lua.rawgeti dataIn i
      let curUsed ← packBase (-1) (bufLen - usedLen)
      afterPack top curUsed
        (packElements packBase top dataIn bufLen count (i + 1) (usedLen + curUsed))

/-- `fcall_array_arg::pack` after the number of elements is known. -/
def packCounted (packBase : ℤ → ℤ → LuaM ℤ) (top dataIn bufLen arrayLen usedLen : ℤ) : LuaM ℤ :=
  if arrayLen > 512 then pure 0
  else packElements packBase top dataIn bufLen arrayLen.toNat 1 usedLen

def packArray (packBase : ℤ → ℤ → LuaM ℤ) (size dataIn bufLen : ℤ) : LuaM ℤ := do
  let top ← Lua.gettop
  let data ← Lua.valueAt dataIn
  if data.isTable then
    if size = 0 then
      checkBuf 1 bufLen do
        Lua.emit (le 1 (unsigned32 (int32 data.objlen)))
        packCounted packBase top dataIn bufLen (int32 data.objlen) 1
    else packCounted packBase top dataIn bufLen size 0
  else .exit .raise

/-- The loop of `fcall_array_arg::unpack` over the elements from index `i` on. -/
def unpackElements (unpackBase : Bytes → ℤ → LuaM ℤ) (top dataI : ℤ) (buf : Bytes) (bufLen : ℤ) :
    (count : ℕ) → (i readedLen : ℤ) → LuaM ℤ
  | 0, _, readedLen => do
      Lua.assert ((← Lua.gettop) = dataI)
      return readedLen
  | count + 1, i, readedLen => do
      Lua.push (.number (i + 1 : ℤ))
      let curReaded ← unpackBase (buf.drop readedLen.toNat) (bufLen - readedLen)
      afterUnpack top curReaded dataI
        (unpackElements unpackBase top dataI buf bufLen count (i + 1) (readedLen + curReaded))

def unpackArray (unpackBase : Bytes → ℤ → LuaM ℤ) (size : ℤ) (buf : Bytes) (bufLen : ℤ) :
    LuaM ℤ := do
  let top ← Lua.gettop
  Lua.newtable
  if size = 0 then
    checkBuf 1 bufLen do
      let arrayLen := ofLe (← fetch buf 0 1)
      unpackElements unpackBase top (top + 1) buf bufLen arrayLen 0 1
  else unpackElements unpackBase top (top + 1) buf bufLen size.toNat 0 0

/-! ## Tables and the dispatch on the format -/

mutual

/-- The virtual function `pack`. -/
def pack (numerals : Numerals) : FcallArg → (dataIn bufLen : ℤ) → LuaM ℤ
  | .number, dataIn, bufLen => packNumber dataIn bufLen
  | .byte, dataIn, bufLen => packByte dataIn bufLen
  | .word, dataIn, bufLen => packWord dataIn bufLen
  | .dword, dataIn, bufLen => packDword dataIn bufLen
  | .string, dataIn, bufLen => packString numerals dataIn bufLen
  | .array basePacker size, dataIn, bufLen =>
      packArray (fun index remaining => basePacker.pack numerals index remaining) size dataIn bufLen
  | .table opcodes, dataIn, bufLen => do
      let top ← Lua.gettop
      let data ← Lua.valueAt dataIn
      if data.isTable then do
        Lua.push data
        packOpcodes numerals opcodes top bufLen 0
      else .exit .raise

/-- The loop of `fcall_table_arg::pack`. -/
def packOpcodes (numerals : Numerals) :
    List TableOpcode → (top bufLen usedLen : ℤ) → LuaM ℤ
  | [], top, _, usedLen => do
      Lua.settop top
      return usedLen
  | .tbBegin none :: _, _, _, _ => .exit .abort
  | .tbBegin (some key) :: rest, top, bufLen, usedLen => do
      Lua.getref key
      Lua.rawget (-2)
      if (← Lua.valueAt (-1)).isTable then packOpcodes numerals rest top bufLen usedLen
      else do
        Lua.settop top
        .exit .raise
  | .pushValue key valueArg :: rest, top, bufLen, usedLen => do
      Lua.getref key
      Lua.rawget (-2)
      let curUsed ← valueArg.pack numerals (← Lua.gettop) (bufLen - usedLen)
      afterPack top curUsed (packOpcodes numerals rest top bufLen (usedLen + curUsed))
  | .tbEnd :: rest, top, bufLen, usedLen => do
      Lua.pop 1
      packOpcodes numerals rest top bufLen usedLen

end

mutual

/-- The virtual function `unpack`. -/
def unpack : FcallArg → (buf : Bytes) → (bufLen : ℤ) → LuaM ℤ
  | .number, buf, bufLen => unpackNumber buf bufLen
  | .byte, buf, bufLen => unpackByte buf bufLen
  | .word, buf, bufLen => unpackWord buf bufLen
  | .dword, buf, bufLen => unpackDword buf bufLen
  | .string, buf, bufLen => unpackString buf bufLen
  | .array basePacker size, buf, bufLen =>
      unpackArray (fun rest remaining => basePacker.unpack rest remaining) size buf bufLen
  | .table opcodes, buf, bufLen => do
      let top ← Lua.gettop
      Lua.newtable
      unpackOpcodes opcodes top buf bufLen 0

/-- The loop of `fcall_table_arg::unpack`, which leaves out the last opcode. -/
def unpackOpcodes : List TableOpcode → (top : ℤ) → (buf : Bytes) → (bufLen readedLen : ℤ) → LuaM ℤ
  | [], _, _, _, _ => .exit .fault
  | opcode :: rest, top, buf, bufLen, readedLen =>
      if rest.isEmpty then pure readedLen
      else
        match opcode with
        | .tbBegin none => .exit .abort
        | .tbBegin (some key) => do
            Lua.getref key
            Lua.newtable
            unpackOpcodes rest top buf bufLen readedLen
        | .pushValue key valueArg => do
            Lua.getref key
            let curReaded ← valueArg.unpack (buf.drop readedLen.toNat) (bufLen - readedLen)
            afterUnpack top curReaded (-3)
              (unpackOpcodes rest top buf bufLen (readedLen + curReaded))
        | .tbEnd => do
            Lua.rawset (-3)
            unpackOpcodes rest top buf bufLen readedLen

end

end FcallArg

end SimpleModule
