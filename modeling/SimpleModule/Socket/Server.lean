import SimpleModule.Socket.Interface
import SimpleModule.Socket.Network

/-!
# The server program

A `Process` is the state of the server program: the socket manager and the interface objects.
Each accepted connection has a number of its own, since descriptors are reused.  `random` is
the number that the cipher of the interface draws when it encrypts for the first time.

`none` is an event that the program does not survive: an uncaught `SocketError` or a call that
does not return.  The `bool` results of the routing functions are left out, since no caller
looks at them.  Descriptors are not closed here: which ones are open is a matter of the network
that the program is part of, and `exists_history_of_run` says that it is part of one.
-/

namespace SimpleModule

open Octets

/-- The state of the server program. -/
structure Process where
  manager : SocketManager
  interfaces : Interfaces
  connections : ℕ

namespace Process

/-- The server of `main`: one listening socket with a fresh interface object. -/
def create (server : ServerSocket) : Process where
  manager := (SocketManager.create.addServerObj server.vfd server).1
  interfaces := Interfaces.create fun _ => PacketFunc.simpleServerFunc.greetings
  connections := 0

def peerVfdOnConnect (random : Int32) (process : Process) (vfd : ℤ) : Process :=
  match process.manager.packetInterface vfd with
  | none => process
  | some interface =>
      { process with
        interfaces :=
          process.interfaces.packetOnConnect (fun _ => random) process.manager interface vfd }

def peerVfdOnRead (process : Process) (vfd : ℤ) (buf : Bytes) : Option Process :=
  match process.manager.packetInterface vfd with
  | none => some process
  | some interface =>
      (process.interfaces.packetOnRead process.manager interface vfd buf).map
        fun interfaces => { process with interfaces := interfaces }

/-- `NewConnect`, given the results of `accept` and of the `fcntl` calls. -/
def newConnect (random : Int32) (process : Process) (server : ServerSocket) (clientFd : ℤ)
    (nonBlock : Bool) : Option Process :=
  if clientFd < 0 ∨ nonBlock = false then none
  else
    let peerObj : PeerPoint := ⟨clientFd, .server, true, process.connections⟩
    let added := (process.manager.addPeerObj clientFd peerObj).1
    let manager := (added.addPeerServerMap clientFd server).1
    some (peerVfdOnConnect random
      { process with manager := manager, connections := process.connections + 1 } clientFd)

/-- One turn of the loop in `clsPeerPoint::OnRead`. -/
def onRead (process : Process) (vfd : ℤ) (buf : Bytes) : Option Process :=
  match process.manager.peerObjList vfd with
  | none => some process
  | some peer => if peer.status then process.peerVfdOnRead peer.vfd buf else none

/-- `clsPeerPoint::OnError`. -/
def onError (process : Process) (vfd : ℤ) : Process :=
  match process.manager.peerObjList vfd with
  | none => process
  | some peer =>
      if peer.status then
        let cleared : SocketManager :=
          { process.manager with
            peerObjList := Function.update process.manager.peerObjList vfd
              (some { peer with status := false }) }
        { process with manager := cleared.peerVfdOnClose peer.vfd }
      else process

/-- What can happen to the server program. -/
inductive Event
  | accept (clientFd : ℤ) (nonBlock : Bool)
  | read (vfd : ℤ) (chunk : Bytes)
  | write (vfd : ℤ) (buf : Bytes)
  | error (vfd : ℤ)
  deriving DecidableEq, Repr

/-- The reaction of a program that listens on one socket. -/
def step (random : Int32) (server : ServerSocket) (process : Process) :
    Event → Option Process
  | .accept clientFd nonBlock => process.newConnect random server clientFd nonBlock
  | .read vfd chunk => process.onRead vfd chunk
  | .write vfd buf =>
      match server.packetClass with
      | some interface =>
          some { process with
            interfaces :=
              process.interfaces.writeData (fun _ => random) process.manager interface vfd buf }
      | none => some process
  | .error vfd => some (process.onError vfd)

/-! ## Routing

The events of a registered connection reach the interface of the listening socket.
-/

/-- Every peer is a live connection of the listening socket. -/
structure Registered (server : ServerSocket) (process : Process) : Prop where
  peer : ∀ vfd peer, process.manager.peerObjList vfd = some peer →
    peer.vfd = vfd ∧ peer.vfdType = .server ∧ peer.status = true ∧
      peer.connection < process.connections ∧
      process.manager.peerVfd2ServerObj vfd = some server
  owner : ∀ vfd, process.manager.peerObjList vfd = none →
    process.manager.peerVfd2ServerObj vfd = none
  greetings : ∀ interface, (process.interfaces.funcs interface).greetings =
    PacketFunc.simpleServerFunc.greetings

/-- `accept` returns unused descriptors and other events concern connected ones. -/
def Admissible (process : Process) : Event → Prop
  | .accept clientFd nonBlock =>
      0 ≤ clientFd ∧ nonBlock = true ∧ process.manager.peerObjList clientFd = none
  | .read vfd _ => (process.manager.peerObjList vfd).isSome
  | .write vfd _ => (process.manager.peerObjList vfd).isSome
  | .error vfd => (process.manager.peerObjList vfd).isSome

instance (process : Process) : (event : Event) → Decidable (process.Admissible event)
  | .accept _ _ => inferInstanceAs (Decidable (_ ∧ _ ∧ _))
  | .read _ _ => inferInstanceAs (Decidable (_ = true))
  | .write _ _ => inferInstanceAs (Decidable (_ = true))
  | .error _ => inferInstanceAs (Decidable (_ = true))

/-- Packets encrypted by an interface and sent on a connection. -/
def wrote (random : Int32) (interface connection : ℕ) (bufs : List Bytes) (process : Process) :
    Process :=
  { process with
    interfaces :=
      bufs.foldl (Interfaces.wrote (fun _ => random) interface (some connection))
        process.interfaces }

/-- A chunk that an interface has decrypted. -/
def took (interface : ℕ) (vfd : ℤ) (process : Process) (chunk : Bytes)
    (decrypted : PacketDecrypt × List Bag) : Process :=
  { process with
    interfaces :=
      process.interfaces.took interface (process.manager.connectionOf vfd) chunk decrypted }

/-- A connection with its two registry entries. -/
def accepted (process : Process) (server : ServerSocket) (clientFd : ℤ) : Process :=
  { process with
    manager :=
      { process.manager with
        peerObjList := Function.update process.manager.peerObjList clientFd
          (some ⟨clientFd, .server, true, process.connections⟩)
        peerVfd2ServerObj :=
          Function.update process.manager.peerVfd2ServerObj clientFd (some server) }
    connections := process.connections + 1 }

/-- The removal of both registry entries. -/
def closed (process : Process) (vfd : ℤ) : Process :=
  { process with
    manager :=
      { process.manager with
        peerObjList := Function.update process.manager.peerObjList vfd none
        peerVfd2ServerObj := Function.update process.manager.peerVfd2ServerObj vfd none } }

section Step

variable {random : Int32} {server : ServerSocket} {interface : ℕ} {process : Process}

theorem packetInterface_eq (registered : process.Registered server)
    (serves : server.packetClass = some interface) {vfd : ℤ} {peer : PeerPoint}
    (found : process.manager.peerObjList vfd = some peer) :
    process.manager.packetInterface vfd = some interface := by
  rcases registered.peer vfd peer found with ⟨-, typed, -, -, owned⟩
  simp [SocketManager.packetInterface, found, typed, owned, serves]

theorem step_accept (registered : process.Registered server)
    (serves : server.packetClass = some interface) {clientFd : ℤ} {nonBlock : Bool}
    (admissible : process.Admissible (.accept clientFd nonBlock)) :
    process.step random server (.accept clientFd nonBlock) =
      some ((process.accepted server clientFd).wrote random interface process.connections
        PacketFunc.simpleServerFunc.greetings) := by
  rcases admissible with ⟨nonneg, rfl, unused⟩
  have unowned := registered.owner clientFd unused
  have reached : (process.accepted server clientFd).manager.peerVfdOnWrite clientFd =
      some process.connections := by
    simp [SocketManager.peerVfdOnWrite, accepted]
  have routed : (process.accepted server clientFd).manager.packetInterface clientFd =
      some interface := by
    simp [SocketManager.packetInterface, accepted, serves]
  have survives : ¬(clientFd < 0 ∨ true = false) := by
    simp only [Bool.true_eq_false, or_false, not_lt]
    exact nonneg
  have added : process.step random server (.accept clientFd true) =
      some (peerVfdOnConnect random (process.accepted server clientFd) clientFd) := by
    simp only [step, newConnect, if_neg survives, SocketManager.addPeerObj,
      SocketManager.addPeerServerMap, unused, unowned, Option.isSome_none, Bool.false_eq_true,
      if_false, accepted]
  rw [added]
  simp only [peerVfdOnConnect, routed, Interfaces.packetOnConnect_eq, reached, wrote]
  rw [show (process.accepted server clientFd).interfaces = process.interfaces from rfl,
    registered.greetings interface]

theorem step_read (registered : process.Registered server)
    (serves : server.packetClass = some interface) {vfd : ℤ} {chunk : Bytes}
    (admissible : process.Admissible (.read vfd chunk)) :
    process.step random server (.read vfd chunk) =
      ((process.interfaces.funcs interface).decryptObj.decryptPacket .requested vfd chunk).map
        (process.took interface vfd chunk) := by
  rcases Option.isSome_iff_exists.mp admissible with ⟨peer, found⟩
  have routed := packetInterface_eq registered serves found
  rcases registered.peer vfd peer found with ⟨same, -, live, -, -⟩
  simp only [step, onRead, found, if_pos live, same, peerVfdOnRead, routed,
    Interfaces.packetOnRead_eq, Option.map_map]
  rfl

theorem step_write (registered : process.Registered server)
    (serves : server.packetClass = some interface) {vfd : ℤ} {buf : Bytes}
    (admissible : process.Admissible (.write vfd buf)) :
    ∃ peer, process.manager.peerObjList vfd = some peer ∧
      process.step random server (.write vfd buf) =
        some (process.wrote random interface peer.connection [buf]) := by
  rcases Option.isSome_iff_exists.mp admissible with ⟨peer, found⟩
  rcases registered.peer vfd peer found with ⟨-, -, live, -, -⟩
  refine ⟨peer, found, ?_⟩
  simp only [step, serves, Interfaces.writeData_eq, SocketManager.peerVfdOnWrite, found,
    if_pos live]
  rfl

theorem step_error (registered : process.Registered server) {vfd : ℤ}
    (admissible : process.Admissible (.error vfd)) :
    process.step random server (.error vfd) = some (process.closed vfd) := by
  rcases Option.isSome_iff_exists.mp admissible with ⟨peer, found⟩
  rcases registered.peer vfd peer found with ⟨same, typed, live, -, owned⟩
  simp [step, onError, found, live, same, SocketManager.peerVfdOnClose, typed, owned,
    SocketManager.delPeerVfd, closed]

theorem create_registered (server : ServerSocket) : (create server).Registered server where
  peer := by simp [create, SocketManager.addServerObj, SocketManager.create]
  owner := by simp [create, SocketManager.addServerObj, SocketManager.create]
  greetings := fun _ => rfl

theorem Registered.wrote (registered : process.Registered server) (random : Int32)
    (interface connection : ℕ) (bufs : List Bytes) :
    (process.wrote random interface connection bufs).Registered server where
  peer := registered.peer
  owner := registered.owner
  greetings := by
    intro other
    apply Interfaces.foldl_wrote (motive := fun interfaces : Interfaces =>
      (interfaces.funcs other).greetings = PacketFunc.simpleServerFunc.greetings)
    · exact registered.greetings other
    · intro interfaces kept buf _
      exact (Interfaces.funcs_wrote _ interface _ interfaces buf other).2.trans kept

theorem Registered.took (registered : process.Registered server) (interface : ℕ) (vfd : ℤ)
    (chunk : Bytes) (decrypted : PacketDecrypt × List Bag) :
    (process.took interface vfd chunk decrypted).Registered server where
  peer := registered.peer
  owner := registered.owner
  greetings := by
    intro other
    rw [← registered.greetings other]
    exact (Interfaces.funcs_took interface _ process.interfaces chunk decrypted other).2

theorem Registered.accepted (registered : process.Registered server) (clientFd : ℤ) :
    (process.accepted server clientFd).Registered server where
  peer := by
    intro vfd peer found
    by_cases same : vfd = clientFd
    · subst same
      simp only [Process.accepted, Function.update_self, Option.some.injEq] at found
      simp [Process.accepted, ← found]
    · simp only [Process.accepted, Function.update_of_ne same] at found ⊢
      rcases registered.peer vfd peer found with ⟨vfdEq, typed, live, numbered, owned⟩
      exact ⟨vfdEq, typed, live, by omega, owned⟩
  owner := by
    intro vfd absent
    by_cases same : vfd = clientFd
    · simp [Process.accepted, same] at absent
    · simp only [Process.accepted, Function.update_of_ne same] at absent ⊢
      exact registered.owner vfd absent
  greetings := registered.greetings

theorem Registered.closed (registered : process.Registered server) (vfd : ℤ) :
    (process.closed vfd).Registered server where
  peer := by
    intro other peer found
    by_cases same : other = vfd
    · simp [Process.closed, same] at found
    · simp only [Process.closed, Function.update_of_ne same] at found ⊢
      exact registered.peer other peer found
  owner := by
    intro other absent
    by_cases same : other = vfd
    · simp [Process.closed, same]
    · simp only [Process.closed, Function.update_of_ne same] at absent ⊢
      exact registered.owner other absent
  greetings := registered.greetings

/-- Every admissible event keeps the registry consistent. -/
theorem step_registered (serves : server.packetClass = some interface) {event : Event}
    {next : Process} (registered : process.Registered server)
    (admissible : process.Admissible event)
    (stepped : process.step random server event = some next) : next.Registered server := by
  cases event with
  | accept clientFd nonBlock =>
      rw [step_accept registered serves admissible, Option.some.injEq] at stepped
      subst stepped
      exact (registered.accepted clientFd).wrote random interface _ _
  | read vfd chunk =>
      rw [step_read registered serves admissible] at stepped
      rcases Option.map_eq_some_iff.mp stepped with ⟨decrypted, -, rfl⟩
      exact registered.took interface vfd chunk decrypted
  | write vfd buf =>
      rcases step_write registered serves admissible with ⟨peer, -, written⟩
      rw [written, Option.some.injEq] at stepped
      subst stepped
      exact registered.wrote random interface _ _
  | error vfd =>
      rw [step_error registered admissible, Option.some.injEq] at stepped
      subst stepped
      exact registered.closed vfd

end Step

/-! ## The program in a network

The registries of the program are those of a network with one listening socket.
-/

/-- What an event of the program is in the network, on a connection with the given number. -/
def Event.inNetwork (server : ServerSocket) (connection : ℕ) : Event → List Network.Event
  | .accept clientFd nonBlock =>
      [.accept server.vfd ⟨clientFd, ⟨if nonBlock then 0 else -1, 0⟩, connection⟩]
  | .read vfd chunk => [.read vfd chunk]
  | .write _ _ => []
  | .error vfd => [.error vfd vfd]

theorem manager_peerVfdOnConnect (random : Int32) (process : Process) (vfd : ℤ) :
    (process.peerVfdOnConnect random vfd).manager = process.manager := by
  rcases found : process.manager.packetInterface vfd with _ | interface
  · simp only [peerVfdOnConnect, found]
  · simp only [peerVfdOnConnect, found]

theorem manager_onRead {process next : Process} {vfd : ℤ} {chunk : Bytes}
    (returned : process.onRead vfd chunk = some next) : next.manager = process.manager := by
  rcases found : process.manager.peerObjList vfd with _ | peer
  · simp only [onRead, found, Option.some.injEq] at returned
    rw [returned]
  · simp only [onRead, found] at returned
    split_ifs at returned
    rcases routed : process.manager.packetInterface peer.vfd with _ | interface
    · simp only [peerVfdOnRead, routed, Option.some.injEq] at returned
      rw [returned]
    · simp only [peerVfdOnRead, routed] at returned
      rcases Option.map_eq_some_iff.mp returned with ⟨interfaces, -, rfl⟩
      rfl

theorem manager_onError (process : Process) (network : Network)
    (same : network.manager = process.manager) (vfd stale : ℤ) :
    (network.onError vfd stale).manager = (process.onError vfd).manager := by
  rcases found : process.manager.peerObjList vfd with _ | peer
  · simp only [Network.onError, onError, same, found]
  · simp only [Network.onError, onError, same, found]
    split_ifs
    · simp only [Network.close, Network.peerVfdOnClose]
      split <;> rfl
    · simp only [Network.close, Network.peerVfdOnClose]
      split <;> rfl
    · exact same

/-- An event changes the registries of the program and of a network alike. -/
theorem manager_step {random : Int32} {server : ServerSocket} {process next : Process}
    {network : Network} {event : Event} (same : network.manager = process.manager)
    (listens : process.manager.serverObjList server.vfd = some server)
    (stepped : process.step random server event = some next) :
    (Runs.after Network.step network (event.inNetwork server process.connections)).manager =
      next.manager := by
  cases event with
  | accept clientFd nonBlock =>
      simp only [step, newConnect] at stepped
      split_ifs at stepped with fails
      rw [not_or, Bool.not_eq_false] at fails
      rcases fails with ⟨nonneg, rfl⟩
      have works : ¬FcntlResults.Fails ⟨0, 0⟩ := by decide
      rw [Option.some.injEq] at stepped
      rw [← stepped, manager_peerVfdOnConnect]
      simp [Runs.after, Event.inNetwork, Network.step, Network.newConnect, same, listens, nonneg,
        works, Network.opens, Network.onConnect, Network.notify]
  | read vfd chunk =>
      rw [manager_onRead stepped, ← same]
      exact (network.onRead_same vfd chunk).1
  | write vfd buf =>
      rcases serves : server.packetClass with _ | interface
      · simp only [step, serves, Option.some.injEq] at stepped
        rw [← stepped]
        exact same
      · simp only [step, serves, Option.some.injEq] at stepped
        rw [← stepped]
        exact same
  | error vfd =>
      simp only [step, Option.some.injEq] at stepped
      rw [← stepped]
      exact manager_onError process network same vfd vfd

theorem serverObjList_peerVfdOnClose (manager : SocketManager) (peerVfd : ℤ) :
    (manager.peerVfdOnClose peerVfd).serverObjList = manager.serverObjList := by
  rcases found : manager.peerObjList peerVfd with _ | ⟨vfd, _ | _, status, connection⟩
  · simp only [SocketManager.peerVfdOnClose, found]
  · simp only [SocketManager.peerVfdOnClose, found, SocketManager.delPeerVfd]
    split_ifs <;> rfl
  · simp only [SocketManager.peerVfdOnClose, found, SocketManager.delPeerVfd]
    split_ifs <;> rfl

/-- The program never gives its listening socket up. -/
theorem serverObjList_step {random : Int32} {server : ServerSocket} {process next : Process}
    {event : Event} (stepped : process.step random server event = some next) :
    next.manager.serverObjList = process.manager.serverObjList := by
  cases event with
  | accept clientFd nonBlock =>
      simp only [step, newConnect] at stepped
      split_ifs at stepped with fails
      rw [Option.some.injEq] at stepped
      rw [← stepped, manager_peerVfdOnConnect]
      simp only [SocketManager.addPeerObj, SocketManager.addPeerServerMap]
      split_ifs <;> rfl
  | read vfd chunk => rw [manager_onRead stepped]
  | write vfd buf =>
      rcases serves : server.packetClass with _ | interface
      · simp only [step, serves, Option.some.injEq] at stepped
        rw [← stepped]
      · simp only [step, serves, Option.some.injEq] at stepped
        rw [← stepped]
  | error vfd =>
      simp only [step, Option.some.injEq] at stepped
      rw [← stepped]
      rcases found : process.manager.peerObjList vfd with _ | peer
      · simp only [onError, found]
      · simp only [onError, found]
        split_ifs
        · exact serverObjList_peerVfdOnClose _ _
        · rfl

/-- Whatever the program does, its registries are those of a network with some history. -/
theorem exists_history_of_run {random : Int32} {server : ServerSocket} {process final : Process}
    {network : Network} {events : List Event} (same : network.manager = process.manager)
    (listens : process.manager.serverObjList server.vfd = some server)
    (reached : Runs.run (step random server) process events = some final) :
    ∃ history, (Runs.after Network.step network history).manager = final.manager := by
  induction events generalizing process network with
  | nil =>
      rw [Runs.run_nil, Option.some.injEq] at reached
      exact ⟨[], reached ▸ same⟩
  | cons event rest ih =>
      rw [Runs.run_cons, Option.bind_eq_some_iff] at reached
      rcases reached with ⟨next, stepped, later⟩
      have listensNext : next.manager.serverObjList server.vfd = some server := by
        rw [serverObjList_step stepped]
        exact listens
      rcases ih (manager_step same listens stepped) listensNext later with ⟨history, ends⟩
      refine ⟨event.inNetwork server process.connections ++ history, ?_⟩
      rw [Runs.after, List.foldl_append]
      exact ends

end Process

end SimpleModule
