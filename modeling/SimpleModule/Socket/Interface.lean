import SimpleModule.Encrypt.Session
import SimpleModule.Socket.Manager

/-!
# Packet interfaces

The interfaces of the client program and of the server program have the same members: a
sender and a receiver with a cipher each, and two messages for every new connection.
`Interfaces` are the interface objects of a program together with a record of what has
passed through them.  What an interface writes goes to the `bufferevent` of the peer that
the socket manager has for the descriptor; a write to any other descriptor is encrypted and
then dropped.

`randoms` are the numbers that the ciphers of the interfaces draw when they encrypt for the
first time.  `none` is a call that does not return, because the receiver overruns its buffer
or loops.  The results of `WriteData` are left out, since no caller looks at them.
-/

namespace SimpleModule

open Octets

/--
An object of a class derived from `PacketInterface`.  The classes differ in the messages that
their `PacketOnConnect` writes.
-/
structure PacketFunc where
  encryptObj : PacketEncrypt
  decryptObj : PacketDecrypt
  greetings : List Bytes

namespace PacketFunc

/-- The constructors, which give each direction a cipher of its own. -/
def create (greetings : List Bytes) : PacketFunc where
  encryptObj := ⟨some SimpleXOR.create⟩
  decryptObj := PacketDecrypt.create (some SimpleXOR.create)
  greetings := greetings

/-- `SimpleServerFunc` of the server program. -/
def simpleServerFunc : PacketFunc :=
  create [ofString "Hello World", ofString "another Msg!"]

/-- `SimplePacketFunc` of the client program. -/
def simplePacketFunc : PacketFunc :=
  create [ofString "conn ok!", ofString "Try to Send two msg!"]

end PacketFunc

/-- A call of `WriteData`: the packet, the bytes made of it and the connection that got them. -/
structure Write where
  interface : ℕ
  connection : Option ℕ
  packet : Bytes
  output : Bytes

/-- A block that was read on a connection. -/
structure Read where
  connection : Option ℕ
  block : Bytes

/-- A bag that an interface has handed over. -/
structure Handover where
  interface : ℕ
  bag : Bag

/--
The interface objects of a program.  `writes`, `reads` and `handovers` record what has
happened; no function looks at them.
-/
structure Interfaces where
  funcs : ℕ → PacketFunc
  writes : List Write
  reads : List Read
  handovers : List Handover

namespace Interfaces

/-- Interface objects that nobody has used. -/
def create (greetings : ℕ → List Bytes) : Interfaces :=
  ⟨fun interface => PacketFunc.create (greetings interface), [], [], []⟩

/-- `WriteData` of an interface, with `PacketInterface::PacketOnWrite`. -/
def writeData (randoms : ℕ → Int32) (manager : SocketManager) (interfaces : Interfaces)
    (interface : ℕ) (vfd : ℤ) (buf : Bytes) : Interfaces :=
  let func := interfaces.funcs interface
  let encrypted := func.encryptObj.encryptPacket (randoms interface) buf
  let reached := if encrypted.2.length > 0 then manager.peerVfdOnWrite vfd else none
  { interfaces with
    funcs := Function.update interfaces.funcs interface { func with encryptObj := encrypted.1 }
    writes := interfaces.writes ++ [⟨interface, reached, buf, encrypted.2⟩] }

/-- `PacketOnConnect` of an interface. -/
def packetOnConnect (randoms : ℕ → Int32) (manager : SocketManager) (interfaces : Interfaces)
    (interface : ℕ) (vfd : ℤ) : Interfaces :=
  (interfaces.funcs interface).greetings.foldl
    (fun interfaces buf => interfaces.writeData randoms manager interface vfd buf) interfaces

/-- `PacketOnRead` of an interface. -/
def packetOnRead (manager : SocketManager) (interfaces : Interfaces) (interface : ℕ) (vfd : ℤ)
    (buf : Bytes) : Option Interfaces := do
  let func := interfaces.funcs interface
  let decrypted ← func.decryptObj.decryptPacket .requested vfd buf
  return { interfaces with
    funcs := Function.update interfaces.funcs interface { func with decryptObj := decrypted.1 }
    reads := interfaces.reads ++ [⟨manager.connectionOf vfd, buf⟩]
    handovers := interfaces.handovers ++ decrypted.2.map (Handover.mk interface) }

/-! ## What has passed -/

/-- The packets given to an interface, whichever connection they are for. -/
def packetsOf (interfaces : Interfaces) (interface : ℕ) : List Bytes :=
  (interfaces.writes.filter fun write => write.interface = interface).map Write.packet

/-- The bytes that an interface has made of its packets, write by write. -/
def outputsOf (interfaces : Interfaces) (interface : ℕ) : List Bytes :=
  (interfaces.writes.filter fun write => write.interface = interface).map Write.output

/-- The packets written to a connection. -/
def packetsOn (interfaces : Interfaces) (connection : ℕ) : List Bytes :=
  (interfaces.writes.filter fun write => write.connection = some connection).map Write.packet

/-- The bytes written to a connection, write by write. -/
def outputsOn (interfaces : Interfaces) (connection : ℕ) : List Bytes :=
  (interfaces.writes.filter fun write => write.connection = some connection).map Write.output

/-- The blocks read on a connection. -/
def blocksOn (interfaces : Interfaces) (connection : ℕ) : List Bytes :=
  (interfaces.reads.filter fun read => read.connection = some connection).map Read.block

/-- The bags that an interface has handed over. -/
def bagsOf (interfaces : Interfaces) (interface : ℕ) : List Bag :=
  (interfaces.handovers.filter fun handover => handover.interface = interface).map Handover.bag

/-! ## What a call does -/

/-- A packet that an interface encrypts for the given connection. -/
def wrote (randoms : ℕ → Int32) (interface : ℕ) (connection : Option ℕ) (interfaces : Interfaces)
    (buf : Bytes) : Interfaces :=
  let func := interfaces.funcs interface
  let encrypted := func.encryptObj.encryptPacket (randoms interface) buf
  { interfaces with
    funcs := Function.update interfaces.funcs interface { func with encryptObj := encrypted.1 }
    writes := interfaces.writes ++ [⟨interface, connection, buf, encrypted.2⟩] }

/-- A block that an interface has decrypted. -/
def took (interface : ℕ) (connection : Option ℕ) (interfaces : Interfaces) (buf : Bytes)
    (decrypted : PacketDecrypt × List Bag) : Interfaces :=
  { interfaces with
    funcs := Function.update interfaces.funcs interface
      { interfaces.funcs interface with decryptObj := decrypted.1 }
    reads := interfaces.reads ++ [⟨connection, buf⟩]
    handovers := interfaces.handovers ++ decrypted.2.map (Handover.mk interface) }

theorem length_encryptPacket_pos (random : Int32) (encoder : PacketEncrypt) (buf : Bytes) :
    (encoder.encryptPacket random buf).2.length > 0 := by
  rcases encoder with ⟨_ | cipher⟩
  · simp [PacketEncrypt.encryptPacket]
  · simp only [PacketEncrypt.encryptPacket, SimpleXOR.encrypt]
    split <;> simp

section Calls

variable (randoms : ℕ → Int32) (manager : SocketManager) (interfaces : Interfaces)

theorem writeData_eq (interface : ℕ) (vfd : ℤ) (buf : Bytes) :
    interfaces.writeData randoms manager interface vfd buf =
      interfaces.wrote randoms interface (manager.peerVfdOnWrite vfd) buf := by
  simp only [writeData, if_pos (length_encryptPacket_pos _ _ _), wrote]

theorem packetOnConnect_eq (interface : ℕ) (vfd : ℤ) :
    interfaces.packetOnConnect randoms manager interface vfd =
      (interfaces.funcs interface).greetings.foldl
        (wrote randoms interface (manager.peerVfdOnWrite vfd)) interfaces := by
  simp only [packetOnConnect, writeData_eq]

theorem packetOnRead_eq (interface : ℕ) (vfd : ℤ) (buf : Bytes) :
    interfaces.packetOnRead manager interface vfd buf =
      ((interfaces.funcs interface).decryptObj.decryptPacket .requested vfd buf).map
        (interfaces.took interface (manager.connectionOf vfd) buf) := by
  simp only [packetOnRead, bind, pure]
  rcases (interfaces.funcs interface).decryptObj.decryptPacket .requested vfd buf with
    _ | decrypted
  · rfl
  · rfl

end Calls

section Wrote

variable (randoms : ℕ → Int32) (interface : ℕ) (connection : Option ℕ) (interfaces : Interfaces)
  (buf : Bytes)

theorem packetsOf_wrote (other : ℕ) :
    (interfaces.wrote randoms interface connection buf).packetsOf other =
      interfaces.packetsOf other ++ if interface = other then [buf] else [] := by
  simp only [packetsOf, wrote, List.filter_append, List.map_append]
  split_ifs with same
  · simp [same]
  · simp [same]

theorem outputsOf_wrote (other : ℕ) :
    (interfaces.wrote randoms interface connection buf).outputsOf other =
      interfaces.outputsOf other ++ if interface = other then
        [((interfaces.funcs interface).encryptObj.encryptPacket (randoms interface) buf).2]
      else [] := by
  simp only [outputsOf, wrote, List.filter_append, List.map_append]
  split_ifs with same
  · simp [same]
  · simp [same]

theorem packetsOn_wrote (other : ℕ) :
    (interfaces.wrote randoms interface connection buf).packetsOn other =
      interfaces.packetsOn other ++ if connection = some other then [buf] else [] := by
  simp only [packetsOn, wrote, List.filter_append, List.map_append]
  split_ifs with same
  · simp [same]
  · simp [same]

theorem outputsOn_wrote (other : ℕ) :
    (interfaces.wrote randoms interface connection buf).outputsOn other =
      interfaces.outputsOn other ++ if connection = some other then
        [((interfaces.funcs interface).encryptObj.encryptPacket (randoms interface) buf).2]
      else [] := by
  simp only [outputsOn, wrote, List.filter_append, List.map_append]
  split_ifs with same
  · simp [same]
  · simp [same]

@[simp]
theorem handovers_wrote :
    (interfaces.wrote randoms interface connection buf).handovers = interfaces.handovers := rfl

/-- Writing leaves the receivers and the messages of all interfaces as they are. -/
theorem funcs_wrote (other : ℕ) :
    ((interfaces.wrote randoms interface connection buf).funcs other).decryptObj =
        (interfaces.funcs other).decryptObj ∧
      ((interfaces.wrote randoms interface connection buf).funcs other).greetings =
        (interfaces.funcs other).greetings := by
  by_cases same : other = interface
  · simp [wrote, same]
  · simp [wrote, Function.update_of_ne same]

end Wrote

/-- What every write keeps, a series of writes keeps. -/
theorem foldl_wrote {motive : Interfaces → Prop} (randoms : ℕ → Int32) (interface : ℕ)
    (connection : Option ℕ) {interfaces : Interfaces} {bufs : List Bytes}
    (start : motive interfaces)
    (each : ∀ interfaces, motive interfaces → ∀ buf ∈ bufs,
      motive (interfaces.wrote randoms interface connection buf)) :
    motive (bufs.foldl (wrote randoms interface connection) interfaces) :=
  List.foldlRecOn bufs _ start each

section Took

variable (interface : ℕ) (connection : Option ℕ) (interfaces : Interfaces) (buf : Bytes)
  (decrypted : PacketDecrypt × List Bag)

theorem blocksOn_took (other : ℕ) :
    (interfaces.took interface connection buf decrypted).blocksOn other =
      interfaces.blocksOn other ++ if connection = some other then [buf] else [] := by
  simp only [blocksOn, took, List.filter_append, List.map_append]
  split_ifs with same
  · simp [same]
  · simp [same]

theorem bagsOf_took (other : ℕ) :
    (interfaces.took interface connection buf decrypted).bagsOf other =
      interfaces.bagsOf other ++ if interface = other then decrypted.2 else [] := by
  simp only [bagsOf, took, List.filter_append, List.map_append]
  split_ifs with same
  · simp [same, List.filter_map, Function.comp_def]
  · simp [same, List.filter_map, Function.comp_def]

/-- Reading leaves the senders and the messages of all interfaces as they are. -/
theorem funcs_took (other : ℕ) :
    ((interfaces.took interface connection buf decrypted).funcs other).encryptObj =
        (interfaces.funcs other).encryptObj ∧
      ((interfaces.took interface connection buf decrypted).funcs other).greetings =
        (interfaces.funcs other).greetings := by
  by_cases same : other = interface
  · simp [took, same]
  · simp [took, Function.update_of_ne same]

end Took

/-! ## Senders -/

/-- Each sender is where the packets given to its interface have brought it. -/
def Encoded (randoms : ℕ → Int32) (interfaces : Interfaces) : Prop :=
  ∀ interface, PacketEncrypt.encryptPackets (randoms interface) ⟨some SimpleXOR.create⟩
    (interfaces.packetsOf interface) =
      ((interfaces.funcs interface).encryptObj, interfaces.outputsOf interface)

section Encoded

variable {randoms : ℕ → Int32} {interfaces : Interfaces}

theorem create_encoded (randoms : ℕ → Int32) (greetings : ℕ → List Bytes) :
    (create greetings).Encoded randoms := fun _ => rfl

theorem Encoded.wrote (encoded : interfaces.Encoded randoms) (interface : ℕ)
    (connection : Option ℕ) (buf : Bytes) :
    (interfaces.wrote randoms interface connection buf).Encoded randoms := by
  intro other
  rw [packetsOf_wrote, outputsOf_wrote]
  by_cases same : interface = other
  · subst same
    rw [if_pos rfl, if_pos rfl, PacketEncrypt.encryptPackets_append, encoded interface]
    simp [Interfaces.wrote, PacketEncrypt.encryptPackets]
  · rw [if_neg same, if_neg same, List.append_nil, List.append_nil, encoded other]
    simp [Interfaces.wrote, Function.update_of_ne (Ne.symm same)]

theorem Encoded.took (encoded : interfaces.Encoded randoms) (interface : ℕ)
    (connection : Option ℕ) (buf : Bytes) (decrypted : PacketDecrypt × List Bag) :
    (interfaces.took interface connection buf decrypted).Encoded randoms := by
  intro other
  rw [(funcs_took interface connection interfaces buf decrypted other).1]
  exact encoded other

end Encoded

end Interfaces

end SimpleModule
