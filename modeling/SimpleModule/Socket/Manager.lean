import Mathlib

/-!
# The socket manager

`SocketManager` keeps the listening sockets, the connecting sockets and the
connections (peers), and routes every event of a connection to the packet interface
of the socket it belongs to.  Maps from descriptors to objects are functions into
`Option`; an object that is only ever read is stored in place of the pointer to it.
-/

namespace SimpleModule

/-- `SERVER_TYPE` and `CLIENT_TYPE`. -/
inductive VfdType
  | server
  | client
  deriving DecidableEq, Repr

/-- The class `clsPeerPoint`; `connection` stands for its `bufferevent`. -/
structure PeerPoint where
  vfd : ℤ
  vfdType : VfdType
  status : Bool
  connection : ℕ
  deriving DecidableEq, Repr

/-- The class `clsServerSocket`; `packetClass` is the index of its interface object. -/
structure ServerSocket where
  vfd : ℤ
  packetClass : Option ℕ
  deriving DecidableEq, Repr

/-- The class `clsClientSocket`; `address` tells its objects apart, whose `_Vfd` is never set. -/
structure ClientSocket where
  address : ℕ
  vfd : ℤ
  packetClass : Option ℕ
  deriving DecidableEq, Repr

/-- The class `SocketManager`. -/
structure SocketManager where
  serverObjList : ℤ → Option ServerSocket
  clientObjList : ℤ → Option ClientSocket
  peerObjList : ℤ → Option PeerPoint
  peerVfd2ServerObj : ℤ → Option ServerSocket
  peerVfd2ClientObj : ℤ → Option ClientSocket

namespace SocketManager

def create : SocketManager :=
  ⟨fun _ => none, fun _ => none, fun _ => none, fun _ => none, fun _ => none⟩

def addServerObj (manager : SocketManager) (serverVfd : ℤ) (serverObj : ServerSocket) :
    SocketManager × Bool :=
  if (manager.serverObjList serverVfd).isSome then (manager, false)
  else
    ({ manager with
        serverObjList := Function.update manager.serverObjList serverVfd (some serverObj) }, true)

def addPeerObj (manager : SocketManager) (peerVfd : ℤ) (peerObj : PeerPoint) :
    SocketManager × Bool :=
  if (manager.peerObjList peerVfd).isSome then (manager, false)
  else
    ({ manager with
        peerObjList := Function.update manager.peerObjList peerVfd (some peerObj) }, true)

def addPeerServerMap (manager : SocketManager) (peerVfd : ℤ) (serverObj : ServerSocket) :
    SocketManager × Bool :=
  if (manager.peerVfd2ServerObj peerVfd).isSome then (manager, false)
  else
    ({ manager with
        peerVfd2ServerObj :=
          Function.update manager.peerVfd2ServerObj peerVfd (some serverObj) }, true)

def addPeerClientMap (manager : SocketManager) (peerVfd : ℤ) (clientObj : ClientSocket) :
    SocketManager × Bool :=
  if (manager.peerVfd2ClientObj peerVfd).isSome then (manager, false)
  else
    ({ manager with
        peerVfd2ClientObj :=
          Function.update manager.peerVfd2ClientObj peerVfd (some clientObj) }, true)

def addClientObj (manager : SocketManager) (clientVfd : ℤ) (clientObj : ClientSocket) :
    SocketManager × Bool :=
  if (manager.clientObjList clientVfd).isSome then (manager, false)
  else
    ({ manager with
        clientObjList := Function.update manager.clientObjList clientVfd (some clientObj) }, true)

/-- `SocketManager::DelPeerVfd`, with `DelClientVfd` for a client's descriptor. -/
def delPeerVfd (manager : SocketManager) (peerVfd : ℤ) (delType : VfdType) : SocketManager :=
  let removed :=
    { manager with peerObjList := Function.update manager.peerObjList peerVfd none }
  match delType with
  | .server =>
      { removed with
        peerVfd2ServerObj := Function.update manager.peerVfd2ServerObj peerVfd none }
  | .client =>
      if (manager.peerVfd2ClientObj peerVfd).isSome then
        { removed with
          peerVfd2ClientObj := Function.update manager.peerVfd2ClientObj peerVfd none
          clientObjList := Function.update manager.clientObjList peerVfd none }
      else removed

/--
The interface that `PeerVfdOnRead`, `PeerVfdOnConnect` and `PeerVfdOnClose` find for
a descriptor.
-/
def packetInterface (manager : SocketManager) (vfd : ℤ) : Option ℕ := do
  let peer ← manager.peerObjList vfd
  match peer.vfdType with
  | .server => (← manager.peerVfd2ServerObj vfd).packetClass
  | .client => (← manager.peerVfd2ClientObj vfd).packetClass

/-- The `bufferevent` of the peer on a descriptor. -/
def connectionOf (manager : SocketManager) (vfd : ℤ) : Option ℕ :=
  (manager.peerObjList vfd).map PeerPoint.connection

/--
`SocketManager::PeerVfdOnWrite` with `clsPeerPoint::WriteData`: the connection that gets the
bytes, if any.
-/
def peerVfdOnWrite (manager : SocketManager) (toVfd : ℤ) : Option ℕ :=
  match manager.peerObjList toVfd with
  | none => none
  | some peer => if peer.status then some peer.connection else none

/-- `SocketManager::PeerVfdOnClose`; the interface's `PacketOnError` only prints. -/
def peerVfdOnClose (manager : SocketManager) (peerVfd : ℤ) : SocketManager :=
  match manager.peerObjList peerVfd with
  | none => manager
  | some peer =>
      let owned :=
        match peer.vfdType with
        | .server => (manager.peerVfd2ServerObj peerVfd).isSome
        | .client => (manager.peerVfd2ClientObj peerVfd).isSome
      if owned then manager.delPeerVfd peer.vfd peer.vfdType else manager

end SocketManager

end SimpleModule
