import SimpleModule.Lib.Octets
import SimpleModule.Lib.Runs
import SimpleModule.Socket.Manager

/-!
# Server and client sockets

Sockets are created, accept connections, read from them and lose them.  The results of the
system calls are part of the events, so that every call may fail.  `opened` are the
descriptors that were opened and not closed; `calls` are the calls into packet interfaces,
and what an interface does with them is not part of the model.

A `SocketError` leaves the state that it was thrown in.  After `DelPeerVfd` has deleted a
peer, `OnError` still reads its `_Vfd` and closes what it finds there.  That value is part of
the event: the allocator may have left the descriptor in the freed memory or written over it.

`reaction` says what an event does when the registries are intact, and `step_eq_reaction`
that this is what the code does.
-/

namespace SimpleModule

open Octets

/-- The numbers of `socket_exception.h` that are thrown. -/
inductive SocketErrNo
  | serverCreateErr
  | clientCreateErr
  | connErr
  | serverCreatePeerErr
  deriving DecidableEq, Repr

structure SocketError where
  vfd : ℤ
  errNo : SocketErrNo
  errMsg : String
  deriving DecidableEq, Repr

/-- What a packet interface is told about a connection. -/
inductive Notice
  | onConnect (vfd : ℤ)
  | onRead (vfd : ℤ) (buf : Bytes)
  | onError (vfd : ℤ)
  deriving DecidableEq, Repr

/-- A call into the packet interface with the given index. -/
structure InterfaceCall where
  interface : ℕ
  notice : Notice
  deriving DecidableEq, Repr

/-- The results of the two calls of `fcntl`. -/
structure FcntlResults where
  iFlags : ℤ
  setFl : ℤ
  deriving DecidableEq, Repr

def FcntlResults.Fails (results : FcntlResults) : Prop := results.iFlags = -1 ∨ results.setFl ≠ 0

instance (results : FcntlResults) : Decidable results.Fails :=
  inferInstanceAs (Decidable (_ ∨ _))

/-- The results of the calls in `clsServerSocket::Start`. -/
structure StartResults where
  socket : ℤ
  setsockopt : ℤ
  bind : ℤ
  listen : ℤ
  fcntl : FcntlResults
  deriving DecidableEq, Repr

def StartResults.Succeed (results : StartResults) : Prop :=
  0 ≤ results.socket ∧ results.setsockopt ≠ -1 ∧ 0 ≤ results.bind ∧ results.listen = 0 ∧
    ¬results.fcntl.Fails

instance (results : StartResults) : Decidable results.Succeed :=
  inferInstanceAs (Decidable (_ ∧ _ ∧ _ ∧ _ ∧ _))

/-- The results of the calls in `clsClientSocket::Connect`. -/
structure ConnectResults where
  socket : ℤ
  connect : ℤ
  fcntl : FcntlResults
  bufferevent : ℕ
  deriving DecidableEq, Repr

def ConnectResults.Succeed (results : ConnectResults) : Prop :=
  0 ≤ results.socket ∧ 0 ≤ results.connect ∧ ¬results.fcntl.Fails

instance (results : ConnectResults) : Decidable results.Succeed :=
  inferInstanceAs (Decidable (_ ∧ _ ∧ _))

/-- A descriptor is opened, but the connection to the server fails. -/
def ConnectResults.FailToConnect (results : ConnectResults) : Prop :=
  0 ≤ results.socket ∧ results.connect < 0

instance (results : ConnectResults) : Decidable results.FailToConnect :=
  inferInstanceAs (Decidable (_ ∧ _))

/-- The results of the calls in `NewConnect`. -/
structure AcceptResults where
  accept : ℤ
  fcntl : FcntlResults
  bufferevent : ℕ
  deriving DecidableEq, Repr

def AcceptResults.Succeed (results : AcceptResults) : Prop :=
  0 ≤ results.accept ∧ ¬results.fcntl.Fails

instance (results : AcceptResults) : Decidable results.Succeed :=
  inferInstanceAs (Decidable (_ ∧ _))

/-- The socket manager with the descriptors it uses and the interfaces it calls. -/
structure Network where
  manager : SocketManager
  opened : Finset ℤ
  calls : List InterfaceCall

namespace Network

def create : Network := ⟨SocketManager.create, ∅, []⟩

/-- A descriptor that `socket` or `accept` has returned. -/
def opens (network : Network) (fd : ℤ) : Network :=
  { network with opened := insert fd network.opened }

/-- The system call `close`. -/
def close (network : Network) (fd : ℤ) : Network :=
  { network with opened := network.opened.erase fd }

/-- A call into a packet interface, unless the socket has none. -/
def notify (network : Network) (packetClass : Option ℕ) (notice : Notice) : Network :=
  { network with
    calls := network.calls ++ packetClass.toList.map fun interface => ⟨interface, notice⟩ }

/-! ## Peers -/

/-- `clsPeerPoint::OnConnect` with `SocketManager::PeerVfdOnConnect`. -/
def onConnect (network : Network) (vfd : ℤ) : Network :=
  network.notify (network.manager.packetInterface vfd) (.onConnect vfd)

def peerVfdOnRead (network : Network) (peerVfd : ℤ) (buf : Bytes) : Network :=
  network.notify (network.manager.packetInterface peerVfd) (.onRead peerVfd buf)

/-- `SocketManager::PeerVfdOnWrite`, given the result of `bufferevent_write`. -/
def peerVfdOnWrite (network : Network) (toVfd : ℤ) (written : ℤ) : Bool :=
  match network.manager.peerVfdOnWrite toVfd with
  | none => false
  | some _ => written = 0

/-- The client socket that `DelPeerVfd` deletes in a call of `PeerVfdOnClose`. -/
def deletedClient (manager : SocketManager) (peerVfd : ℤ) : Option ClientSocket := do
  let peer ← manager.peerObjList peerVfd
  match peer.vfdType with
  | .server => none
  | .client =>
      let _ ← manager.peerVfd2ClientObj peerVfd
      let _ ← manager.peerVfd2ClientObj peer.vfd
      manager.clientObjList peer.vfd

/-- `SocketManager::PeerVfdOnClose`; the destructor of a client socket closes its `_Vfd`. -/
def peerVfdOnClose (network : Network) (peerVfd : ℤ) : Network :=
  let told := network.notify (network.manager.packetInterface peerVfd) (.onError peerVfd)
  let removed := { told with manager := network.manager.peerVfdOnClose peerVfd }
  match deletedClient network.manager peerVfd with
  | none => removed
  | some client => removed.close client.vfd

/-- `RECV_BLOCK_SIZE`. -/
def recvBlockSize : ℕ := 1024

/-- The loop of `clsPeerPoint::OnRead`; a call of `bufferevent_read` takes what fits `buf`. -/
def onReadLoop (vfd : ℤ) : (fuel : ℕ) → Network → (data : Bytes) → Network
  | 0, network, _ => network
  | fuel + 1, network, data =>
      if (data.take recvBlockSize).length = 0 then network
      else
        onReadLoop vfd fuel (network.peerVfdOnRead vfd (data.take recvBlockSize))
          (data.drop recvBlockSize)

/-- `clsPeerPoint::OnRead` on the peer with the given descriptor, when `data` has arrived. -/
def onRead (network : Network) (vfd : ℤ) (data : Bytes) : Network × Except SocketError Unit :=
  match network.manager.peerObjList vfd with
  | none => (network, .ok ())
  | some peer =>
      if peer.status then (onReadLoop peer.vfd (data.length + 1) network data, .ok ())
      else (network, .error ⟨peer.vfd, .clientCreateErr, "Try To Read Cleared vfd"⟩)

/-- `clsPeerPoint::OnError`; `stale` is what the memory of a deleted peer has for `_Vfd`. -/
def onError (network : Network) (vfd stale : ℤ) : Network :=
  match network.manager.peerObjList vfd with
  | none => network
  | some peer =>
      if peer.status then
        let cleared : SocketManager :=
          { network.manager with
            peerObjList := Function.update network.manager.peerObjList vfd
              (some { peer with status := false }) }
        let removed := ({ network with manager := cleared } : Network).peerVfdOnClose peer.vfd
        -- without an owner `PeerVfdOnClose` returns before the peer is deleted
        if (removed.manager.peerObjList peer.vfd).isSome then removed.close peer.vfd
        else removed.close stale
      else network

/-! ## Sockets -/

/-- `clsServerSocket::Start`. -/
def start (network : Network) (packetClass : Option ℕ) (results : StartResults) :
    Network × Except SocketError ServerSocket :=
  let socketfd := results.socket
  if socketfd < 0 then
    (network, .error ⟨socketfd, .serverCreateErr, "Create Server Vfd Failed"⟩)
  else
    let network := network.opens socketfd
    if results.setsockopt = -1 then
      (network.close socketfd, .error ⟨socketfd, .serverCreateErr, "Set ReUseAddr Failed"⟩)
    else if results.bind < 0 then
      (network.close socketfd, .error ⟨socketfd, .serverCreateErr, "Bind Failed"⟩)
    else if results.listen ≠ 0 then
      (network.close socketfd, .error ⟨socketfd, .serverCreateErr, "Listen Failed"⟩)
    else if results.fcntl.Fails then
      (network.close socketfd, .error ⟨socketfd, .serverCreateErr, "Set Non Block Failed"⟩)
    else
      let server : ServerSocket := ⟨socketfd, packetClass⟩
      ({ network with manager := (network.manager.addServerObj socketfd server).1 }, .ok server)

/-- `SocketManager::CreateServerSocket`; the result is the new socket or `NULL`. -/
def createServerSocket (network : Network) (packetClass : Option ℕ) (results : StartResults) :
    Network × Option ServerSocket :=
  match network.start packetClass results with
  | (network, .ok server) => (network, some server)
  | (network, .error _) => (network, none)

/-- `clsClientSocket::Connect`. -/
def connect (network : Network) (ip : String) (client : ClientSocket)
    (results : ConnectResults) : Network × Except SocketError Unit :=
  let clientFd := results.socket
  if clientFd < 0 then
    (network, .error ⟨clientFd, .clientCreateErr, ip ++ "Create File Describtion error!"⟩)
  else
    let network := network.opens clientFd
    if results.connect < 0 then
      -- the descriptor is neither closed nor stored
      (network, .error ⟨clientFd, .connErr, ip ++ " Connect Failed"⟩)
    else if results.fcntl.Fails then
      (network.close clientFd, .error ⟨clientFd, .clientCreateErr, ip ++ "Set NonBlock Failed"⟩)
    else
      let peerObj : PeerPoint := ⟨clientFd, .client, true, results.bufferevent⟩
      let manager := (network.manager.addPeerObj clientFd peerObj).1
      let manager := (manager.addPeerClientMap clientFd client).1
      let manager := (manager.addClientObj clientFd client).1
      (({ network with manager := manager } : Network).onConnect clientFd, .ok ())

/-- `SocketManager::CreateClientSocket`; the destructor closes the `_Vfd` of the object. -/
def createClientSocket (network : Network) (ip : String) (packetClass : Option ℕ) (address : ℕ)
    (results : ConnectResults) : Network × Option ClientSocket :=
  let client : ClientSocket := ⟨address, -1, packetClass⟩
  match network.connect ip client results with
  | (network, .ok ()) => (network, some client)
  | (network, .error _) => (network.close client.vfd, none)

/-- `NewConnect` for the server socket that was given to `event_set`. -/
def newConnect (network : Network) (server : ServerSocket) (results : AcceptResults) :
    Network × Except SocketError Unit :=
  let clientFd := results.accept
  if clientFd < 0 then
    (network, .error ⟨server.vfd, .serverCreatePeerErr,
      "Accept Failed,Can not Create Client Vfd"⟩)
  else
    let network := network.opens clientFd
    if results.fcntl.Fails then
      (network.close clientFd, .error ⟨clientFd, .serverCreatePeerErr, "Set Non Block Failed"⟩)
    else
      let peerObj : PeerPoint := ⟨clientFd, .server, true, results.bufferevent⟩
      let manager := (network.manager.addPeerObj clientFd peerObj).1
      let manager := (manager.addPeerServerMap clientFd server).1
      (({ network with manager := manager } : Network).onConnect clientFd, .ok ())

/-- What can happen: a call of the program, or a callback of libevent. -/
inductive Event
  | createServer (packetClass : Option ℕ) (results : StartResults)
  | createClient (ip : String) (packetClass : Option ℕ) (address : ℕ) (results : ConnectResults)
  | accept (listenfd : ℤ) (results : AcceptResults)
  | read (vfd : ℤ) (data : Bytes)
  | error (vfd stale : ℤ)
  deriving DecidableEq, Repr

/-- Connections arrive at the sockets that `Start` has added. -/
def step (network : Network) : Event → Network
  | .createServer packetClass results => (network.createServerSocket packetClass results).1
  | .createClient ip packetClass address results =>
      (network.createClientSocket ip packetClass address results).1
  | .accept listenfd results =>
      match network.manager.serverObjList listenfd with
      | none => network
      | some server => (network.newConnect server results).1
  | .read vfd data => (network.onRead vfd data).1
  | .error vfd stale => network.onError vfd stale

/-- The kernel never returns a descriptor that is still open. -/
def Unopened (network : Network) : Event → Prop
  | .createServer _ results => 0 ≤ results.socket → results.socket ∉ network.opened
  | .createClient _ _ _ results => 0 ≤ results.socket → results.socket ∉ network.opened
  | .accept _ results => 0 ≤ results.accept → results.accept ∉ network.opened
  | .read _ _ => True
  | .error _ _ => True

instance (network : Network) : (event : Event) → Decidable (network.Unopened event)
  | .createServer _ _ => inferInstanceAs (Decidable (_ → _))
  | .createClient _ _ _ _ => inferInstanceAs (Decidable (_ → _))
  | .accept _ _ => inferInstanceAs (Decidable (_ → _))
  | .read _ _ => isTrue trivial
  | .error _ _ => isTrue trivial

/-- The memory of a lost peer holds no open descriptor other than its own. -/
def ClosesNoOther (network : Network) : Event → Prop
  | .error vfd stale =>
      (network.manager.peerObjList vfd).isSome → stale = vfd ∨ stale ∉ network.opened
  | _ => True

instance (network : Network) : (event : Event) → Decidable (network.ClosesNoOther event)
  | .createServer _ _ => isTrue trivial
  | .createClient _ _ _ _ => isTrue trivial
  | .accept _ _ => isTrue trivial
  | .read _ _ => isTrue trivial
  | .error _ _ => inferInstanceAs (Decidable (_ → _ ∨ _))

/-- What is returned is not open, and what is open is not closed for another peer. -/
def Fresh (network : Network) (event : Event) : Prop :=
  network.Unopened event ∧ network.ClosesNoOther event

instance (network : Network) (event : Event) : Decidable (network.Fresh event) :=
  inferInstanceAs (Decidable (_ ∧ _))

/-- The state after a history of events. -/
abbrev after (history : List Event) : Network := Runs.after step create history

/-- No event of a history returns an open descriptor. -/
abbrev UnopenedHistory (history : List Event) : Prop := Runs.Allowed step Unopened create history

/-- All events of a history are fresh. -/
abbrev FreshHistory (history : List Event) : Prop := Runs.Allowed step Fresh create history

/-! ## Intact registries -/

/-- The entries of a descriptor: none, those of an accepted or those of an opened connection. -/
inductive Entry (manager : SocketManager) (vfd : ℤ) : Prop
  | absent (noPeer : manager.peerObjList vfd = none)
      (noServer : manager.peerVfd2ServerObj vfd = none)
      (noOwner : manager.peerVfd2ClientObj vfd = none) (noClient : manager.clientObjList vfd = none)
  | accepted (server : ServerSocket) (connection : ℕ)
      (peer : manager.peerObjList vfd = some ⟨vfd, .server, true, connection⟩)
      (owner : manager.peerVfd2ServerObj vfd = some server)
      (listens : manager.serverObjList server.vfd = some server)
      (noOwner : manager.peerVfd2ClientObj vfd = none) (noClient : manager.clientObjList vfd = none)
  | connected (client : ClientSocket) (connection : ℕ) (unset : client.vfd = -1)
      (peer : manager.peerObjList vfd = some ⟨vfd, .client, true, connection⟩)
      (noServer : manager.peerVfd2ServerObj vfd = none)
      (owner : manager.peerVfd2ClientObj vfd = some client)
      (listed : manager.clientObjList vfd = some client)

/-- Entries stay when the registries of their descriptor do and no listening socket is lost. -/
theorem Entry.of_same {manager next : SocketManager} {vfd : ℤ} (entry : Entry manager vfd)
    (samePeer : next.peerObjList vfd = manager.peerObjList vfd)
    (sameServer : next.peerVfd2ServerObj vfd = manager.peerVfd2ServerObj vfd)
    (sameOwner : next.peerVfd2ClientObj vfd = manager.peerVfd2ClientObj vfd)
    (sameClient : next.clientObjList vfd = manager.clientObjList vfd)
    (kept : ∀ key server, manager.serverObjList key = some server →
      next.serverObjList key = some server) : Entry next vfd := by
  rcases entry with
    ⟨noPeer, noServer, noOwner, noClient⟩ |
    ⟨server, connection, peer, owner, listens, noOwner, noClient⟩ |
    ⟨client, connection, unset, peer, noServer, owner, listed⟩
  · exact .absent (samePeer.trans noPeer) (sameServer.trans noServer) (sameOwner.trans noOwner)
      (sameClient.trans noClient)
  · exact .accepted server connection (samePeer.trans peer) (sameServer.trans owner)
      (kept _ _ listens) (sameOwner.trans noOwner) (sameClient.trans noClient)
  · exact .connected client connection unset (samePeer.trans peer) (sameServer.trans noServer)
      (sameOwner.trans owner) (sameClient.trans listed)

/-- The registries fit together and know only open descriptors. -/
structure Intact (network : Network) : Prop where
  entry : ∀ vfd, Entry network.manager vfd
  listening : ∀ vfd server, network.manager.serverObjList vfd = some server →
    server.vfd = vfd ∧ vfd ∈ network.opened ∧ network.manager.peerObjList vfd = none
  peer : ∀ vfd, (network.manager.peerObjList vfd).isSome → vfd ∈ network.opened
  nonneg : ∀ vfd ∈ network.opened, 0 ≤ vfd

theorem create_intact : create.Intact where
  entry := fun _ => .absent rfl rfl rfl rfl
  listening := by
    intro vfd server found
    cases found
  peer := by
    intro vfd found
    cases found
  nonneg := by
    intro vfd member
    cases member

/-- A new listening socket. -/
def listened (network : Network) (server : ServerSocket) : Network :=
  { network.opens server.vfd with
    manager := { network.manager with
      serverObjList :=
        Function.update network.manager.serverObjList server.vfd (some server) } }

/-- A new connection of a server socket. -/
def accepted (network : Network) (server : ServerSocket) (vfd : ℤ) (connection : ℕ) : Network :=
  ({ network.opens vfd with
    manager := { network.manager with
      peerObjList := Function.update network.manager.peerObjList vfd
        (some ⟨vfd, .server, true, connection⟩)
      peerVfd2ServerObj :=
        Function.update network.manager.peerVfd2ServerObj vfd (some server) } } : Network).notify
    server.packetClass (.onConnect vfd)

/-- A new connection of a client socket. -/
def connected (network : Network) (client : ClientSocket) (vfd : ℤ) (connection : ℕ) : Network :=
  ({ network.opens vfd with
    manager := { network.manager with
      peerObjList := Function.update network.manager.peerObjList vfd
        (some ⟨vfd, .client, true, connection⟩)
      peerVfd2ClientObj := Function.update network.manager.peerVfd2ClientObj vfd (some client)
      clientObjList := Function.update network.manager.clientObjList vfd (some client) } } :
    Network).notify client.packetClass (.onConnect vfd)

/-- The end of a connection. -/
def disconnected (network : Network) (vfd stale : ℤ) : Network :=
  ({ network.close stale with
    manager := { network.manager with
      peerObjList := Function.update network.manager.peerObjList vfd none
      peerVfd2ServerObj := Function.update network.manager.peerVfd2ServerObj vfd none
      peerVfd2ClientObj := Function.update network.manager.peerVfd2ClientObj vfd none
      clientObjList := Function.update network.manager.clientObjList vfd none } } :
    Network).notify (network.manager.packetInterface vfd) (.onError vfd)

/-- What an event does to intact registries. -/
def reaction (network : Network) : Event → Network
  | .createServer packetClass results =>
      if results.Succeed then network.listened ⟨results.socket, packetClass⟩ else network
  | .createClient _ packetClass address results =>
      if results.FailToConnect then network.opens results.socket
      else if results.Succeed then
        network.connected ⟨address, -1, packetClass⟩ results.socket results.bufferevent
      else network
  | .accept listenfd results =>
      match network.manager.serverObjList listenfd with
      | none => network
      | some server =>
          if results.Succeed then network.accepted server results.accept results.bufferevent
          else network
  | .read vfd data => (network.onRead vfd data).1
  | .error vfd stale =>
      if (network.manager.peerObjList vfd).isSome then network.disconnected vfd stale
      else network

@[simp]
theorem close_opens {network : Network} {fd : ℤ} (fresh : fd ∉ network.opened) :
    (network.opens fd).close fd = network := by
  simp [opens, close, Finset.erase_insert fresh]

/-- The `_Vfd` of a client socket is no descriptor, so that its destructor closes nothing. -/
theorem close_unset {network : Network} (nonneg : ∀ vfd ∈ network.opened, 0 ≤ vfd) :
    network.close (-1) = network := by
  have unopened : (-1 : ℤ) ∉ network.opened := by
    intro member
    have := nonneg _ member
    omega
  simp [close, Finset.erase_eq_of_notMem unopened]

namespace Intact

variable {network : Network}

/-- A descriptor that is not open has no entries. -/
theorem absent_of_fresh (intact : network.Intact) {fd : ℤ} (fresh : fd ∉ network.opened) :
    network.manager.serverObjList fd = none ∧ network.manager.peerObjList fd = none ∧
      network.manager.peerVfd2ServerObj fd = none ∧
      network.manager.peerVfd2ClientObj fd = none ∧ network.manager.clientObjList fd = none := by
  have noListener : network.manager.serverObjList fd = none := by
    rcases found : network.manager.serverObjList fd with _ | server
    · rfl
    · exact absurd (intact.listening fd server found).2.1 fresh
  refine ⟨noListener, ?_⟩
  rcases intact.entry fd with
    ⟨noPeer, noServer, noOwner, noClient⟩ | ⟨_, _, peer⟩ | ⟨_, _, _, peer⟩
  · exact ⟨noPeer, noServer, noOwner, noClient⟩
  · exact absurd (intact.peer fd (by simp [peer])) fresh
  · exact absurd (intact.peer fd (by simp [peer])) fresh

theorem live (intact : network.Intact) {vfd : ℤ} {peer : PeerPoint}
    (found : network.manager.peerObjList vfd = some peer) :
    peer.vfd = vfd ∧ peer.status = true := by
  rcases intact.entry vfd with ⟨noPeer, -, -, -⟩ | ⟨_, _, own, -⟩ | ⟨_, _, -, own, -⟩
  · rw [noPeer] at found
    cases found
  · rw [own, Option.some.injEq] at found
    exact found ▸ ⟨rfl, rfl⟩
  · rw [own, Option.some.injEq] at found
    exact found ▸ ⟨rfl, rfl⟩

theorem step_createServer (intact : network.Intact) {packetClass : Option ℕ}
    {results : StartResults} (unopened : network.Unopened (.createServer packetClass results)) :
    network.step (.createServer packetClass results) =
      network.reaction (.createServer packetClass results) := by
  simp only [step, createServerSocket, start, reaction]
  by_cases negative : results.socket < 0
  · have fails : ¬results.Succeed := fun succeed => not_lt.mpr succeed.1 negative
    rw [if_pos negative, if_neg fails]
  · have unopened : results.socket ∉ network.opened := unopened (not_lt.mp negative)
    have unlisted := (intact.absent_of_fresh unopened).1
    rw [if_neg negative]
    by_cases succeed : results.Succeed
    · rcases succeed with ⟨nonneg, setsockopt, bind, listen, fcntl⟩
      rw [if_neg setsockopt, if_neg (not_lt.mpr bind), if_neg (not_not.mpr listen), if_neg fcntl,
        if_pos ⟨nonneg, setsockopt, bind, listen, fcntl⟩]
      simp [opens, SocketManager.addServerObj, unlisted, listened]
    · rw [if_neg succeed]
      split_ifs with setsockopt bind listen fcntl
      · exact close_opens unopened
      · exact close_opens unopened
      · exact close_opens unopened
      · exact close_opens unopened
      · exact absurd ⟨not_lt.mp negative, setsockopt, not_lt.mp bind, not_not.mp listen, fcntl⟩
          succeed

theorem step_createClient (intact : network.Intact) {ip : String} {packetClass : Option ℕ}
    {address : ℕ} {results : ConnectResults}
    (unopened : network.Unopened (.createClient ip packetClass address results)) :
    network.step (.createClient ip packetClass address results) =
      network.reaction (.createClient ip packetClass address results) := by
  simp only [step, createClientSocket, connect, reaction]
  by_cases negative : results.socket < 0
  · have fails : ¬results.Succeed := fun succeed => not_lt.mpr succeed.1 negative
    have unopened : ¬results.FailToConnect := fun fails => not_lt.mpr fails.1 negative
    rw [if_pos negative, if_neg fails, if_neg unopened]
    exact close_unset intact.nonneg
  · have nonneg : 0 ≤ results.socket := not_lt.mp negative
    have unopened : results.socket ∉ network.opened := unopened nonneg
    rw [if_neg negative]
    by_cases refused : results.connect < 0
    · rw [if_pos refused, if_pos ⟨nonneg, refused⟩]
      apply close_unset
      intro vfd member
      rcases Finset.mem_insert.mp member with rfl | earlier
      · exact nonneg
      · exact intact.nonneg vfd earlier
    · have reachable : ¬results.FailToConnect := fun fails => refused fails.2
      rw [if_neg refused, if_neg reachable]
      by_cases fcntl : results.fcntl.Fails
      · have fails : ¬results.Succeed := fun succeed => succeed.2.2 fcntl
        rw [if_pos fcntl, if_neg fails]
        simp only [close_opens unopened]
        exact close_unset intact.nonneg
      · rcases intact.absent_of_fresh unopened with ⟨-, noPeer, noServer, noOwner, noClient⟩
        rw [if_neg fcntl, if_pos ⟨nonneg, not_lt.mp refused, fcntl⟩]
        simp [opens, SocketManager.addPeerObj, SocketManager.addPeerClientMap,
          SocketManager.addClientObj, noPeer, noOwner, noClient, onConnect,
          SocketManager.packetInterface, connected]

theorem step_accept (intact : network.Intact) {listenfd : ℤ} {results : AcceptResults}
    (unopened : network.Unopened (.accept listenfd results)) :
    network.step (.accept listenfd results) = network.reaction (.accept listenfd results) := by
  rcases found : network.manager.serverObjList listenfd with _ | server
  · simp only [step, reaction, found]
  · simp only [step, reaction, found, newConnect]
    by_cases negative : results.accept < 0
    · have fails : ¬results.Succeed := fun succeed => not_lt.mpr succeed.1 negative
      rw [if_pos negative, if_neg fails]
    · have nonneg : 0 ≤ results.accept := not_lt.mp negative
      have unopened : results.accept ∉ network.opened := unopened nonneg
      rw [if_neg negative]
      by_cases fcntl : results.fcntl.Fails
      · have fails : ¬results.Succeed := fun succeed => succeed.2 fcntl
        rw [if_pos fcntl, if_neg fails]
        exact close_opens unopened
      · rcases intact.absent_of_fresh unopened with ⟨-, noPeer, noServer, noOwner, noClient⟩
        rw [if_neg fcntl, if_pos ⟨nonneg, fcntl⟩]
        simp [opens, SocketManager.addPeerObj, SocketManager.addPeerServerMap, noPeer, noServer,
          onConnect, SocketManager.packetInterface, accepted]

theorem step_error (intact : network.Intact) (vfd stale : ℤ) :
    network.step (.error vfd stale) = network.reaction (.error vfd stale) := by
  rcases intact.entry vfd with
    ⟨noPeer, noServer, noOwner, noClient⟩ |
    ⟨server, connection, peer, owner, listens, noOwner, noClient⟩ |
    ⟨client, connection, unset, peer, noServer, owner, listed⟩
  · simp [step, reaction, onError, noPeer]
  · simp [step, reaction, onError, peer, peerVfdOnClose, SocketManager.packetInterface, owner,
      deletedClient, SocketManager.peerVfdOnClose, SocketManager.delPeerVfd, disconnected, notify,
      close]
    exact ⟨noClient, noOwner⟩
  · have unopened : client.vfd ∉ network.opened := by
      intro member
      have := intact.nonneg _ member
      omega
    simp [step, reaction, onError, peer, peerVfdOnClose, SocketManager.packetInterface, owner,
      listed, deletedClient, SocketManager.peerVfdOnClose, SocketManager.delPeerVfd, disconnected,
      notify, close]
    exact ⟨noServer, by rw [Finset.erase_eq_of_notMem unopened]⟩

/-- The code reacts as described. -/
theorem step_eq_reaction (intact : network.Intact) {event : Event}
    (unopened : network.Unopened event) : network.step event = network.reaction event := by
  cases event with
  | createServer packetClass results => exact intact.step_createServer unopened
  | createClient ip packetClass address results => exact intact.step_createClient unopened
  | accept listenfd results => exact intact.step_accept unopened
  | read vfd data => rfl
  | error vfd stale => exact intact.step_error vfd stale

/-! ### Preservation -/

theorem of_same {next : Network} (intact : network.Intact)
    (manager : next.manager = network.manager) (opened : next.opened = network.opened) :
    next.Intact := by
  constructor
  · rw [manager]
    exact intact.entry
  · rw [manager, opened]
    exact intact.listening
  · rw [manager, opened]
    exact intact.peer
  · rw [opened]
    exact intact.nonneg

theorem nonneg_insert (intact : network.Intact) {fd : ℤ} (nonneg : 0 ≤ fd) :
    ∀ vfd ∈ insert fd network.opened, 0 ≤ vfd := by
  intro vfd member
  rcases Finset.mem_insert.mp member with rfl | earlier
  · exact nonneg
  · exact intact.nonneg vfd earlier

theorem opens (intact : network.Intact) {fd : ℤ} (nonneg : 0 ≤ fd) :
    (network.opens fd).Intact where
  entry := intact.entry
  listening := by
    intro vfd server found
    rcases intact.listening vfd server found with ⟨same, member, noPeer⟩
    exact ⟨same, Finset.mem_insert_of_mem member, noPeer⟩
  peer := by
    intro vfd found
    exact Finset.mem_insert_of_mem (intact.peer vfd found)
  nonneg := intact.nonneg_insert nonneg

theorem listened (intact : network.Intact) {server : ServerSocket} (nonneg : 0 ≤ server.vfd)
    (fresh : server.vfd ∉ network.opened) : (network.listened server).Intact where
  entry := by
    intro vfd
    refine (intact.entry vfd).of_same rfl rfl rfl rfl ?_
    intro key other found
    have apart : key ≠ server.vfd := by
      intro same
      rw [same, (intact.absent_of_fresh fresh).1] at found
      cases found
    exact (Function.update_of_ne apart _ _).trans found
  listening := by
    intro vfd other found
    by_cases same : vfd = server.vfd
    · subst same
      simp only [Network.listened, Function.update_self, Option.some.injEq] at found
      exact ⟨found ▸ rfl, Finset.mem_insert_self _ _, (intact.absent_of_fresh fresh).2.1⟩
    · simp only [Network.listened, Function.update_of_ne same] at found
      rcases intact.listening vfd other found with ⟨own, member, noPeer⟩
      exact ⟨own, Finset.mem_insert_of_mem member, noPeer⟩
  peer := by
    intro vfd found
    exact Finset.mem_insert_of_mem (intact.peer vfd found)
  nonneg := intact.nonneg_insert nonneg

/-- A connection on a fresh descriptor, whose own entries fit together. -/
theorem of_connection {next : Network} (intact : network.Intact) {fd : ℤ} (nonneg : 0 ≤ fd)
    (fresh : fd ∉ network.opened) (opened : next.opened = insert fd network.opened)
    (servers : next.manager.serverObjList = network.manager.serverObjList)
    (peers : ∀ vfd, vfd ≠ fd →
      next.manager.peerObjList vfd = network.manager.peerObjList vfd)
    (others : ∀ vfd, vfd ≠ fd → Entry next.manager vfd) (own : Entry next.manager fd) :
    next.Intact where
  entry := by
    intro vfd
    by_cases same : vfd = fd
    · exact same ▸ own
    · exact others vfd same
  listening := by
    intro vfd server found
    rw [servers] at found
    rcases intact.listening vfd server found with ⟨same, member, noPeer⟩
    have apart : vfd ≠ fd := fun equal => fresh (equal ▸ member)
    rw [opened, peers vfd apart]
    exact ⟨same, Finset.mem_insert_of_mem member, noPeer⟩
  peer := by
    intro vfd found
    rw [opened]
    by_cases same : vfd = fd
    · exact same ▸ Finset.mem_insert_self fd network.opened
    · rw [peers vfd same] at found
      exact Finset.mem_insert_of_mem (intact.peer vfd found)
  nonneg := by
    rw [opened]
    exact intact.nonneg_insert nonneg

theorem accepted (intact : network.Intact) {server : ServerSocket} {fd : ℤ} {listenfd : ℤ}
    (listens : network.manager.serverObjList listenfd = some server) (nonneg : 0 ≤ fd)
    (fresh : fd ∉ network.opened) (connection : ℕ) :
    (network.accepted server fd connection).Intact := by
  rcases intact.absent_of_fresh fresh with ⟨-, -, -, noOwner, noClient⟩
  obtain rfl := (intact.listening listenfd server listens).1
  refine intact.of_connection nonneg fresh rfl rfl ?_ ?_ ?_
  · intro vfd apart
    exact Function.update_of_ne apart _ _
  · intro vfd apart
    exact (intact.entry vfd).of_same (Function.update_of_ne apart _ _)
      (Function.update_of_ne apart _ _) rfl rfl fun _ _ found => found
  · exact .accepted server connection (Function.update_self ..) (Function.update_self ..) listens
      noOwner noClient

theorem connected (intact : network.Intact) {client : ClientSocket} {fd : ℤ}
    (unset : client.vfd = -1) (nonneg : 0 ≤ fd) (fresh : fd ∉ network.opened)
    (connection : ℕ) : (network.connected client fd connection).Intact := by
  rcases intact.absent_of_fresh fresh with ⟨-, -, noServer, -, -⟩
  refine intact.of_connection nonneg fresh rfl rfl ?_ ?_ ?_
  · intro vfd apart
    exact Function.update_of_ne apart _ _
  · intro vfd apart
    exact (intact.entry vfd).of_same (Function.update_of_ne apart _ _) rfl
      (Function.update_of_ne apart _ _) (Function.update_of_ne apart _ _) fun _ _ found => found
  · exact .connected client connection unset (Function.update_self ..) noServer
      (Function.update_self ..) (Function.update_self ..)

theorem mem_erase_stale {vfd stale other : ℤ} (closes : stale = vfd ∨ stale ∉ network.opened)
    (apart : other ≠ vfd) (member : other ∈ network.opened) :
    other ∈ network.opened.erase stale := by
  apply Finset.mem_erase_of_ne_of_mem _ member
  rintro rfl
  rcases closes with same | unopened
  · exact apart same
  · exact unopened member

theorem disconnected (intact : network.Intact) {vfd stale : ℤ}
    (closes : stale = vfd ∨ stale ∉ network.opened)
    (registered : (network.manager.peerObjList vfd).isSome) :
    (network.disconnected vfd stale).Intact where
  entry := by
    intro other
    by_cases same : other = vfd
    · subst same
      exact .absent (Function.update_self ..) (Function.update_self ..) (Function.update_self ..)
        (Function.update_self ..)
    · exact (intact.entry other).of_same (Function.update_of_ne same _ _)
        (Function.update_of_ne same _ _) (Function.update_of_ne same _ _)
        (Function.update_of_ne same _ _) fun _ _ found => found
  listening := by
    intro key server found
    rcases intact.listening key server found with ⟨own, member, noPeer⟩
    have apart : key ≠ vfd := by
      rintro rfl
      rw [noPeer] at registered
      cases registered
    exact ⟨own, mem_erase_stale closes apart member,
      (Function.update_of_ne apart _ _).trans noPeer⟩
  peer := by
    intro other found
    by_cases same : other = vfd
    · simp [Network.disconnected, notify, same] at found
    · simp only [Network.disconnected, notify, Function.update_of_ne same] at found
      exact mem_erase_stale closes same (intact.peer other found)
  nonneg := by
    intro other member
    exact intact.nonneg other (Finset.mem_of_mem_erase member)

end Intact

/-! ### Reading -/

/-- The blocks that the loop passes on. -/
def blocksWithin : (fuel : ℕ) → (data : Bytes) → List Bytes
  | 0, _ => []
  | fuel + 1, data =>
      if (data.take recvBlockSize).length = 0 then []
      else data.take recvBlockSize :: blocksWithin fuel (data.drop recvBlockSize)

/-- The blocks that a read passes on. -/
def readBlocks (data : Bytes) : List Bytes := blocksWithin (data.length + 1) data

/-- Data in blocks that are not empty and fit `buf`. -/
structure ReadsBlocks (data : Bytes) (blocks : List Bytes) : Prop where
  whole : blocks.flatten = data
  bounded : ∀ block ∈ blocks, block ≠ [] ∧ block.length ≤ recvBlockSize

theorem readsBlocks_blocksWithin {fuel : ℕ} {data : Bytes} (enough : data.length < fuel) :
    ReadsBlocks data (blocksWithin fuel data) := by
  induction fuel generalizing data with
  | zero => omega
  | succ fuel ih =>
      rw [blocksWithin]
      split_ifs with empty
      · rw [List.length_take, recvBlockSize] at empty
        have nothing : data = [] := List.eq_nil_of_length_eq_zero (by omega)
        exact ⟨nothing.symm, by simp⟩
      · have shorter : (data.drop recvBlockSize).length < fuel := by
          rw [List.length_take, recvBlockSize] at empty
          rw [List.length_drop, recvBlockSize]
          omega
        rcases ih shorter with ⟨whole, bounded⟩
        constructor
        · rw [List.flatten_cons, whole, List.take_append_drop]
        · intro block member
          rcases List.mem_cons.mp member with rfl | earlier
          · exact ⟨List.ne_nil_of_length_pos (by omega), by simp⟩
          · exact bounded block earlier

theorem readsBlocks_readBlocks (data : Bytes) : ReadsBlocks data (readBlocks data) :=
  readsBlocks_blocksWithin (Nat.lt_succ_self data.length)

theorem onReadLoop_eq (vfd : ℤ) (fuel : ℕ) (network : Network) (data : Bytes) :
    onReadLoop vfd fuel network data =
      { network with
        calls := network.calls ++ (blocksWithin fuel data).flatMap fun block =>
          (network.manager.packetInterface vfd).toList.map
            fun interface => ⟨interface, .onRead vfd block⟩ } := by
  induction fuel generalizing data network with
  | zero => simp [onReadLoop, blocksWithin]
  | succ fuel ih =>
      rw [onReadLoop, blocksWithin]
      split_ifs with empty
      · simp
      · rw [ih]
        simp [peerVfdOnRead, notify]

theorem onRead_same (network : Network) (vfd : ℤ) (data : Bytes) :
    (network.onRead vfd data).1.manager = network.manager ∧
      (network.onRead vfd data).1.opened = network.opened := by
  rcases found : network.manager.peerObjList vfd with _ | peer
  · simp [onRead, found]
  · simp only [onRead, found]
    split_ifs
    · simp [onReadLoop_eq]
    · exact ⟨rfl, rfl⟩

theorem Intact.step {network : Network} (intact : network.Intact) {event : Event}
    (fresh : network.Fresh event) : (network.step event).Intact := by
  rw [intact.step_eq_reaction fresh.1]
  cases event with
  | createServer packetClass results =>
      simp only [reaction]
      split_ifs with succeed
      · exact intact.listened succeed.1 (fresh.1 succeed.1)
      · exact intact
  | createClient ip packetClass address results =>
      simp only [reaction]
      split_ifs with refused succeed
      · exact intact.opens refused.1
      · exact intact.connected rfl succeed.1 (fresh.1 succeed.1) _
      · exact intact
  | accept listenfd results =>
      rcases found : network.manager.serverObjList listenfd with _ | server
      · simpa only [reaction, found] using intact
      · simp only [reaction, found]
        split_ifs with succeed
        · exact intact.accepted found succeed.1 (fresh.1 succeed.1) _
        · exact intact
  | read vfd data =>
      have same := network.onRead_same vfd data
      exact intact.of_same same.1 same.2
  | error vfd stale =>
      simp only [reaction]
      split_ifs with registered
      · exact intact.disconnected (fresh.2 registered) registered
      · exact intact

theorem FreshHistory.intact {history : List Event} (fresh : FreshHistory history) :
    (after history).Intact :=
  Runs.Allowed.invariant (fun intact fresh => intact.step fresh) create_intact fresh

end Network

end SimpleModule
