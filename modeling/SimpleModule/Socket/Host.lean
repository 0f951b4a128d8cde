import SimpleModule.Socket.Interface
import SimpleModule.Socket.Routing

/-!
# Hosts

A `Host` is a program that uses the socket manager together with its packet interfaces.
An event of the network makes calls into interfaces, which the interfaces answer in order.
No registry changes between such a call and the end of the event, except that
`PacketOnError` is called before the connection is removed; it only prints.

Two things are proved of every run.  The sender of an interface sees the packets given to this
interface and nothing else, whichever connections they are for.  The receiver of an interface
that serves one connection sees the blocks of this connection and nothing else.  So an
interface that serves one connection, and is used to write to it only, sends and delivers what
a sender and a receiver would that no other connection has ever used.
-/

namespace SimpleModule

open Octets Runs

/-- The reaction of an interface to a call. -/
def Interfaces.answer (randoms : ℕ → Int32) (manager : SocketManager) (interfaces : Interfaces)
    (call : InterfaceCall) : Option Interfaces :=
  match call.notice with
  | .onConnect vfd => some (interfaces.packetOnConnect randoms manager call.interface vfd)
  | .onRead vfd buf => interfaces.packetOnRead manager call.interface vfd buf
  | .onError _ => some interfaces

/-- The state of a program with sockets. -/
structure Host where
  network : Network
  interfaces : Interfaces

namespace Host

/-- A program that has created its interfaces and no socket. -/
def create (greetings : ℕ → List Bytes) : Host :=
  ⟨Network.create, Interfaces.create greetings⟩

/-- `NewConnect` or `clsPeerPoint::OnRead` throws a `SocketError`, which nobody catches. -/
def Throws (host : Host) : Network.Event → Prop
  | .createServer _ _ => False
  | .createClient _ _ _ _ => False
  | .accept listenfd results =>
      (host.network.manager.serverObjList listenfd).isSome ∧ ¬results.Succeed
  | .read vfd _ => ((host.network.manager.peerObjList vfd).any fun peer => !peer.status) = true
  | .error _ _ => False

instance (host : Host) : (event : Network.Event) → Decidable (host.Throws event)
  | .createServer _ _ => isFalse id
  | .createClient _ _ _ _ => isFalse id
  | .accept _ _ => inferInstanceAs (Decidable (_ ∧ _))
  | .read _ _ => inferInstanceAs (Decidable (_ = true))
  | .error _ _ => isFalse id

/-- The calls that an event of the network makes into interfaces. -/
def callsOf (network : Network) (event : Network.Event) : List InterfaceCall :=
  (network.step event).calls.drop network.calls.length

/-- What can happen to a program: an event of the network, or a call of `WriteData`. -/
inductive Event
  | network (event : Network.Event)
  | write (interface : ℕ) (vfd : ℤ) (buf : Bytes)
  deriving DecidableEq, Repr

/-- There is no state after an uncaught exception or a call that does not return. -/
def step (randoms : ℕ → Int32) (host : Host) : Event → Option Host
  | .network event =>
      if host.Throws event then none
      else
        (run (Interfaces.answer randoms (host.network.step event).manager) host.interfaces
          (callsOf host.network event)).map (Host.mk (host.network.step event))
  | .write interface vfd buf =>
      some { host with
        interfaces :=
          host.interfaces.writeData randoms host.network.manager interface vfd buf }

/-- The condition that the network has on its events. -/
def Fresh (host : Host) : Event → Prop
  | .network event => host.network.Fresh event
  | .write _ _ _ => True

instance (host : Host) : (event : Event) → Decidable (host.Fresh event)
  | .network event => inferInstanceAs (Decidable (host.network.Fresh event))
  | .write _ _ _ => isTrue trivial

/-! ## Endpoints -/

/-- One end of a connection: the interface that serves it, its `bufferevent` and its descriptor. -/
structure Endpoint where
  interface : ℕ
  connection : ℕ
  vfd : ℤ

/-- A new connection has the interface of the endpoint exactly if it is the endpoint's own. -/
def Endpoint.Fits (own : Endpoint) (packetClass : Option ℕ) (vfd : ℤ) (connection : ℕ) : Prop :=
  (packetClass = some own.interface ↔ connection = own.connection) ∧
    (connection = own.connection → vfd = own.vfd)

instance (own : Endpoint) (packetClass : Option ℕ) (vfd : ℤ) (connection : ℕ) :
    Decidable (own.Fits packetClass vfd connection) :=
  inferInstanceAs (Decidable (_ ∧ _))

/-- No connection other than the endpoint's own gets the interface of the endpoint. -/
def Exclusive (own : Endpoint) (host : Host) : Event → Prop
  | .network (.createClient _ packetClass _ results) =>
      results.Succeed → own.Fits packetClass results.socket results.bufferevent
  | .network (.accept listenfd results) =>
      results.Succeed → ∀ server ∈ host.network.manager.serverObjList listenfd,
        own.Fits server.packetClass results.accept results.bufferevent
  | _ => True

instance (own : Endpoint) (host : Host) : (event : Event) → Decidable (host.Exclusive own event)
  | .network (.createServer _ _) => isTrue trivial
  | .network (.createClient _ _ _ _) => inferInstanceAs (Decidable (_ → _))
  | .network (.accept _ _) => inferInstanceAs (Decidable (_ → _))
  | .network (.read _ _) => isTrue trivial
  | .network (.error _ _) => isTrue trivial
  | .write _ _ _ => isTrue trivial

/-- The events of a run respect the endpoint. -/
def Respects (own : Endpoint) (host : Host) (event : Event) : Prop :=
  host.Fresh event ∧ host.Exclusive own event

instance (own : Endpoint) (host : Host) (event : Event) : Decidable (host.Respects own event) :=
  inferInstanceAs (Decidable (_ ∧ _))

end Host

namespace Interfaces

open Host (Endpoint)

/-- The endpoint's receiver is where the blocks of its connection have brought it. -/
def Decoded (own : Endpoint) (interfaces : Interfaces) : Prop :=
  PacketDecrypt.decryptPackets .requested own.vfd (PacketDecrypt.create (some SimpleXOR.create))
    (interfaces.blocksOn own.connection) =
      some ((interfaces.funcs own.interface).decryptObj, interfaces.bagsOf own.interface)

/-- The endpoint's interface has written to its connection, and no other interface has. -/
def Dedicated (own : Endpoint) (interfaces : Interfaces) : Prop :=
  ∀ write ∈ interfaces.writes,
    write.interface = own.interface ↔ write.connection = some own.connection

instance (own : Endpoint) (interfaces : Interfaces) : Decidable (interfaces.Dedicated own) :=
  inferInstanceAs (Decidable (∀ write ∈ interfaces.writes, _))

section Endpoint

variable {randoms : ℕ → Int32} {own : Endpoint} {interfaces : Interfaces}

theorem Decoded.wrote (decoded : interfaces.Decoded own) (interface : ℕ)
    (connection : Option ℕ) (buf : Bytes) :
    (interfaces.wrote randoms interface connection buf).Decoded own := by
  rw [Decoded, (funcs_wrote randoms interface connection interfaces buf own.interface).1]
  exact decoded

/-- A block reaches the endpoint's receiver exactly if it was read on its connection. -/
theorem Decoded.took (decoded : interfaces.Decoded own) {interface : ℕ}
    {connection : Option ℕ} {vfd : ℤ} {buf : Bytes} {decrypted : PacketDecrypt × List Bag}
    (returned : (interfaces.funcs interface).decryptObj.decryptPacket .requested vfd buf =
      some decrypted)
    (served : connection = some own.connection ↔ interface = own.interface)
    (placed : connection = some own.connection → vfd = own.vfd) :
    (interfaces.took interface connection buf decrypted).Decoded own := by
  rw [Decoded, blocksOn_took, bagsOf_took]
  by_cases same : interface = own.interface
  · rw [if_pos (served.mpr same), if_pos same, PacketDecrypt.decryptPackets_append decoded]
    rw [same, placed (served.mpr same)] at returned
    simp [Interfaces.took, same, PacketDecrypt.decryptPackets, returned]
  · rw [if_neg (mt served.mp same), if_neg same, List.append_nil, List.append_nil, decoded]
    simp [Interfaces.took, Function.update_of_ne (Ne.symm same)]

theorem Dedicated.wrote (dedicated : interfaces.Dedicated own) {interface : ℕ}
    {connection : Option ℕ}
    (served : interface = own.interface ↔ connection = some own.connection) (buf : Bytes) :
    (interfaces.wrote randoms interface connection buf).Dedicated own := by
  intro write member
  simp only [Interfaces.wrote, List.mem_append, List.mem_singleton] at member
  rcases member with earlier | rfl
  · exact dedicated write earlier
  · exact served

/-- What a dedicated interface has been given is what has been written to its connection. -/
theorem Dedicated.packetsOf_eq (dedicated : interfaces.Dedicated own) :
    interfaces.packetsOf own.interface = interfaces.packetsOn own.connection ∧
      interfaces.outputsOf own.interface = interfaces.outputsOn own.connection := by
  have same : (interfaces.writes.filter fun write => write.interface = own.interface) =
      interfaces.writes.filter fun write => write.connection = some own.connection :=
    List.filter_congr fun write member => decide_eq_decide.mpr (dedicated write member)
  rw [packetsOf, outputsOf, same]
  exact ⟨rfl, rfl⟩

theorem Encoded.outputsOf_eq (encoded : interfaces.Encoded randoms) (interface : ℕ) :
    interfaces.outputsOf interface =
      (PacketEncrypt.encryptPackets (randoms interface) ⟨some SimpleXOR.create⟩
        (interfaces.packetsOf interface)).2 := by
  rw [encoded interface]

/-- A dedicated interface writes to its connection what a sender alone would. -/
theorem Encoded.outputsOn_eq (encoded : interfaces.Encoded randoms)
    (dedicated : interfaces.Dedicated own) :
    interfaces.outputsOn own.connection =
      (PacketEncrypt.encryptPackets (randoms own.interface) ⟨some SimpleXOR.create⟩
        (interfaces.packetsOn own.connection)).2 := by
  rw [← dedicated.packetsOf_eq.1, ← dedicated.packetsOf_eq.2, encoded.outputsOf_eq]

end Endpoint

end Interfaces

namespace Host

/-! ## The calls of an event -/

/-- A call is made on the interface that the registries have for its descriptor. -/
def Routed (manager : SocketManager) (call : InterfaceCall) : Prop :=
  match call.notice with
  | .onConnect vfd => manager.packetInterface vfd = some call.interface
  | .onRead vfd _ => manager.packetInterface vfd = some call.interface
  | .onError _ => True

section Calls

variable {network : Network}

theorem packetInterface_accepted (server : ServerSocket) (vfd : ℤ) (connection : ℕ) :
    (network.accepted server vfd connection).manager.packetInterface vfd = server.packetClass := by
  rw [Network.packetInterface_eq_join, Network.owner_accepted, Function.update_self]
  rfl

theorem packetInterface_connected (client : ClientSocket) (vfd : ℤ) (connection : ℕ) :
    (network.connected client vfd connection).manager.packetInterface vfd =
      client.packetClass := by
  rw [Network.packetInterface_eq_join, Network.owner_connected, Function.update_self]
  rfl

theorem calls_accepted (server : ServerSocket) (vfd : ℤ) (connection : ℕ) :
    (network.accepted server vfd connection).calls = network.calls ++
      server.packetClass.toList.map fun interface => ⟨interface, .onConnect vfd⟩ := rfl

theorem calls_connected (client : ClientSocket) (vfd : ℤ) (connection : ℕ) :
    (network.connected client vfd connection).calls = network.calls ++
      client.packetClass.toList.map fun interface => ⟨interface, .onConnect vfd⟩ := rfl

theorem calls_disconnected (vfd stale : ℤ) :
    (network.disconnected vfd stale).calls = network.calls ++
      (network.manager.packetInterface vfd).toList.map
        fun interface => ⟨interface, .onError vfd⟩ := rfl

theorem callsOf_read (intact : network.Intact) {vfd : ℤ} {peer : PeerPoint}
    (found : network.manager.peerObjList vfd = some peer) (data : Bytes) :
    callsOf network (.read vfd data) = (Network.readBlocks data).flatMap fun block =>
      (network.manager.packetInterface vfd).toList.map
        fun interface => ⟨interface, .onRead vfd block⟩ := by
  have live := intact.live found
  simp only [callsOf, Network.step, Network.onRead, found, if_pos live.2, live.1,
    Network.onReadLoop_eq, List.drop_left]
  rfl

/-- A call made by an event: for a new connection, for a block of a read, or for an error. -/
inductive Made (network : Network) (event : Network.Event) : InterfaceCall → Prop
  | connect (vfd : ℤ) (interface : ℕ)
      (routed : (network.step event).manager.packetInterface vfd = some interface) :
      Made network event ⟨interface, .onConnect vfd⟩
  | read (vfd : ℤ) (data block : Bytes) (interface : ℕ) (source : event = .read vfd data)
      (routed : (network.step event).manager.packetInterface vfd = some interface) :
      Made network event ⟨interface, .onRead vfd block⟩
  | error (vfd : ℤ) (interface : ℕ) : Made network event ⟨interface, .onError vfd⟩

theorem made_of_mem_callsOf (intact : network.Intact) {event : Network.Event}
    (unopened : network.Unopened event) {call : InterfaceCall}
    (called : call ∈ callsOf network event) : Made network event call := by
  have stepped := intact.step_eq_reaction unopened
  cases event with
  | createServer packetClass results =>
      rw [callsOf, stepped] at called
      simp only [Network.reaction] at called
      split_ifs at called
      · simp [Network.listened, Network.opens] at called
      · simp at called
  | createClient ip packetClass address results =>
      rw [callsOf, stepped] at called
      simp only [Network.reaction] at called stepped
      split_ifs at called stepped with refused succeed
      · simp [Network.opens] at called
      · rw [calls_connected, List.drop_left, List.mem_map] at called
        rcases called with ⟨interface, member, rfl⟩
        apply Made.connect
        rw [stepped, packetInterface_connected]
        exact Option.mem_toList.mp member
      · simp at called
  | accept listenfd results =>
      rw [callsOf, stepped] at called
      rcases found : network.manager.serverObjList listenfd with _ | server
      · simp [Network.reaction, found] at called
      · simp only [Network.reaction, found] at called stepped
        split_ifs at called stepped with succeed
        · rw [calls_accepted, List.drop_left, List.mem_map] at called
          rcases called with ⟨interface, member, rfl⟩
          apply Made.connect
          rw [stepped, packetInterface_accepted]
          exact Option.mem_toList.mp member
        · simp at called
  | read vfd data =>
      rcases found : network.manager.peerObjList vfd with _ | peer
      · simp [callsOf, Network.step, Network.onRead, found] at called
      · rw [callsOf_read intact found data, List.mem_flatMap] at called
        rcases called with ⟨block, -, called⟩
        rcases List.mem_map.mp called with ⟨interface, member, rfl⟩
        apply Made.read vfd data block interface rfl
        simp only [Network.step, (network.onRead_same vfd data).1]
        exact Option.mem_toList.mp member
  | error vfd stale =>
      rw [callsOf, stepped] at called
      simp only [Network.reaction] at called
      split_ifs at called
      · rw [calls_disconnected, List.drop_left, List.mem_map] at called
        rcases called with ⟨interface, -, rfl⟩
        exact .error vfd interface
      · simp at called

theorem Made.routed {event : Network.Event} {call : InterfaceCall}
    (made : Made network event call) : Routed (network.step event).manager call := by
  cases made with
  | connect vfd interface routed => exact routed
  | read vfd data block interface source routed => exact routed
  | error vfd interface => exact trivial

end Calls

/-! ## Registries -/

/-- In the registries the endpoint's connection is the only one with its interface. -/
structure Apart (own : Endpoint) (network : Network) : Prop where
  intact : network.Intact
  served : ∀ vfd, network.manager.connectionOf vfd = some own.connection ↔
    network.manager.packetInterface vfd = some own.interface
  placed : ∀ vfd, network.manager.connectionOf vfd = some own.connection → vfd = own.vfd

section Apart

variable {own : Endpoint} {network next : Network}

theorem create_apart (own : Endpoint) : Apart own Network.create where
  intact := Network.create_intact
  served := by
    simp [SocketManager.connectionOf, Network.create, SocketManager.create,
      SocketManager.packetInterface]
  placed := by simp [SocketManager.connectionOf, Network.create, SocketManager.create]

theorem Apart.of_same (apart : Apart own network) (intact : next.Intact)
    (peers : next.manager.peerObjList = network.manager.peerObjList)
    (owners : Network.owner next.manager = Network.owner network.manager) : Apart own next := by
  refine ⟨intact, ?_, ?_⟩
  · intro vfd
    rw [SocketManager.connectionOf, peers, Network.packetInterface_eq_join, owners,
      ← Network.packetInterface_eq_join]
    exact apart.served vfd
  · intro vfd
    rw [SocketManager.connectionOf, peers]
    exact apart.placed vfd

/-- The registries after a change of the entries of one descriptor. -/
theorem Apart.of_update (apart : Apart own network) (intact : next.Intact) {fd : ℤ}
    {peer : Option PeerPoint} {owner : Option (Option ℕ)}
    (peers : next.manager.peerObjList = Function.update network.manager.peerObjList fd peer)
    (owners : Network.owner next.manager =
      Function.update (Network.owner network.manager) fd owner)
    (served : peer.map PeerPoint.connection = some own.connection ↔
      owner.join = some own.interface)
    (placed : peer.map PeerPoint.connection = some own.connection → fd = own.vfd) :
    Apart own next := by
  refine ⟨intact, ?_, ?_⟩
  · intro vfd
    simp only [SocketManager.connectionOf, peers, Network.packetInterface_eq_join, owners]
    by_cases same : vfd = fd
    · rw [same, Function.update_self, Function.update_self]
      exact served
    · rw [Function.update_of_ne same, Function.update_of_ne same,
        ← Network.packetInterface_eq_join]
      exact apart.served vfd
  · intro vfd
    simp only [SocketManager.connectionOf, peers]
    by_cases same : vfd = fd
    · rw [same, Function.update_self]
      exact placed
    · rw [Function.update_of_ne same]
      exact apart.placed vfd

theorem Endpoint.Fits.served {packetClass : Option ℕ} {vfd : ℤ} {connection : ℕ}
    (fits : own.Fits packetClass vfd connection) :
    some connection = some own.connection ↔ (some packetClass).join = some own.interface := by
  rw [Option.some.injEq, Option.join_some]
  exact fits.1.symm

theorem Apart.step {host : Host} (apart : Apart own host.network) {event : Network.Event}
    (fresh : host.network.Fresh event) (exclusive : host.Exclusive own (.network event)) :
    Apart own (host.network.step event) := by
  have intact := apart.intact.step fresh
  rw [apart.intact.step_eq_reaction fresh.1] at intact ⊢
  cases event with
  | createServer packetClass results =>
      simp only [Network.reaction] at intact ⊢
      split_ifs at intact ⊢ with succeed
      · exact apart.of_same intact rfl rfl
      · exact apart
  | createClient ip packetClass address results =>
      simp only [Network.reaction] at intact ⊢
      split_ifs at intact ⊢ with refused succeed
      · exact apart.of_same intact rfl rfl
      · have fits := exclusive succeed
        exact apart.of_update intact rfl (Network.owner_connected _ _ _ _) fits.served
          fun same => fits.2 (Option.some.inj same)
      · exact apart
  | accept listenfd results =>
      rcases found : host.network.manager.serverObjList listenfd with _ | server
      · simp only [Network.reaction, found]
        exact apart
      · simp only [Network.reaction, found] at intact ⊢
        split_ifs at intact ⊢ with succeed
        · have fits := exclusive succeed server found
          exact apart.of_update intact rfl (Network.owner_accepted _ _ _ _) fits.served
            fun same => fits.2 (Option.some.inj same)
        · exact apart
  | read vfd data =>
      have same := (host.network.onRead_same vfd data).1
      exact apart.of_same intact (congrArg _ same) (congrArg _ same)
  | error vfd stale =>
      simp only [Network.reaction] at intact ⊢
      split_ifs at intact ⊢ with registered
      · apply apart.of_update intact rfl (Network.owner_disconnected _ _ _)
        · simp
        · simp
      · exact apart

/-- A call for a descriptor is one on the endpoint's interface if it is for its connection. -/
theorem Apart.concerns (apart : Apart own network) {interface : ℕ} {vfd : ℤ}
    (routed : network.manager.packetInterface vfd = some interface) :
    network.manager.connectionOf vfd = some own.connection ↔ interface = own.interface := by
  rw [apart.served, routed, Option.some.injEq]

/-- Every registered peer can be written to. -/
theorem peerVfdOnWrite_eq (intact : network.Intact) (vfd : ℤ) :
    network.manager.peerVfdOnWrite vfd = network.manager.connectionOf vfd := by
  rcases found : network.manager.peerObjList vfd with _ | peer
  · simp [SocketManager.peerVfdOnWrite, SocketManager.connectionOf, found]
  · simp [SocketManager.peerVfdOnWrite, SocketManager.connectionOf, found,
      (intact.live found).2]

end Apart

/-! ## Whole runs -/

/-- The endpoint's interface behaves as if it were alone on the host. -/
structure Isolated (randoms : ℕ → Int32) (own : Endpoint) (host : Host) : Prop where
  apart : Apart own host.network
  encoded : host.interfaces.Encoded randoms
  decoded : host.interfaces.Decoded own

section Runs

variable {randoms : ℕ → Int32} {own : Endpoint} {network : Network}
  {interfaces between : Interfaces} {host next : Host}

theorem answer_encoded {manager : SocketManager} {call : InterfaceCall}
    (encoded : interfaces.Encoded randoms)
    (answered : interfaces.answer randoms manager call = some between) :
    between.Encoded randoms := by
  rcases call with ⟨interface, vfd | ⟨vfd, buf⟩ | vfd⟩
  · cases answered
    rw [Interfaces.packetOnConnect_eq]
    apply Interfaces.foldl_wrote (motive := fun interfaces => interfaces.Encoded randoms)
    · exact encoded
    · exact fun interfaces encoded buf _ => encoded.wrote interface _ buf
  · simp only [Interfaces.answer, Interfaces.packetOnRead_eq] at answered
    rcases Option.map_eq_some_iff.mp answered with ⟨decrypted, -, rfl⟩
    exact encoded.took interface _ buf decrypted
  · cases answered
    exact encoded

theorem answer_decoded (apart : Apart own network) {call : InterfaceCall}
    (routed : Routed network.manager call) (decoded : interfaces.Decoded own)
    (answered : interfaces.answer randoms network.manager call = some between) :
    between.Decoded own := by
  rcases call with ⟨interface, vfd | ⟨vfd, buf⟩ | vfd⟩
  · cases answered
    rw [Interfaces.packetOnConnect_eq]
    apply Interfaces.foldl_wrote (motive := fun interfaces => interfaces.Decoded own)
    · exact decoded
    · exact fun interfaces decoded buf _ => decoded.wrote interface _ buf
  · simp only [Interfaces.answer, Interfaces.packetOnRead_eq] at answered
    rcases Option.map_eq_some_iff.mp answered with ⟨decrypted, returned, rfl⟩
    exact decoded.took returned (apart.concerns routed) (apart.placed vfd)
  · cases answered
    exact decoded

/-- The greetings of a new connection are written to it. -/
theorem answer_dedicated (apart : Apart own network) {call : InterfaceCall}
    (routed : Routed network.manager call) (dedicated : interfaces.Dedicated own)
    (answered : interfaces.answer randoms network.manager call = some between) :
    between.Dedicated own := by
  rcases call with ⟨interface, vfd | ⟨vfd, buf⟩ | vfd⟩
  · cases answered
    rw [Interfaces.packetOnConnect_eq, peerVfdOnWrite_eq apart.intact]
    apply Interfaces.foldl_wrote (motive := fun interfaces => interfaces.Dedicated own)
    · exact dedicated
    · exact fun interfaces dedicated buf _ => dedicated.wrote (apart.concerns routed).symm buf
  · simp only [Interfaces.answer, Interfaces.packetOnRead_eq] at answered
    rcases Option.map_eq_some_iff.mp answered with ⟨decrypted, -, rfl⟩
    exact dedicated
  · cases answered
    exact dedicated

/-- What the network and the interfaces do in an event that the program survives. -/
theorem step_network_eq_some {event : Network.Event}
    (stepped : host.step randoms (.network event) = some next) :
    next.network = host.network.step event ∧
      run (Interfaces.answer randoms (host.network.step event).manager) host.interfaces
        (callsOf host.network event) = some next.interfaces := by
  simp only [step] at stepped
  split_ifs at stepped
  rcases Option.map_eq_some_iff.mp stepped with ⟨interfaces, answered, rfl⟩
  exact ⟨rfl, answered⟩

/-- The step lemma: an event that respects the endpoint keeps it isolated. -/
theorem Isolated.step (isolated : host.Isolated randoms own) {event : Event}
    (respects : host.Respects own event) (stepped : host.step randoms event = some next) :
    next.Isolated randoms own := by
  rcases respects with ⟨fresh, exclusive⟩
  cases event with
  | network event =>
      rcases step_network_eq_some stepped with ⟨network, answered⟩
      have apart : Apart own next.network := network ▸ isolated.apart.step fresh exclusive
      refine ⟨apart, ?_, ?_⟩
      · exact run_invariant (fun _ _ _ _ => answer_encoded) isolated.encoded answered
      · rw [← network] at answered
        refine run_invariant (fun call called => ?_) isolated.decoded answered
        have made := made_of_mem_callsOf isolated.apart.intact fresh.1 called
        exact fun _ _ => answer_decoded apart (network ▸ made.routed)
  | write interface vfd buf =>
      cases stepped
      rw [Interfaces.writeData_eq]
      exact ⟨isolated.apart, isolated.encoded.wrote interface _ buf,
        isolated.decoded.wrote interface _ buf⟩

theorem create_isolated (greetings : ℕ → List Bytes) (own : Endpoint) :
    (create greetings).Isolated randoms own where
  apart := create_apart own
  encoded := Interfaces.create_encoded randoms greetings
  decoded := rfl

theorem isolated_of_run {start final : Host} {events : List Event}
    (isolated : start.Isolated randoms own)
    (respected : StepsMeet (step randoms) (Respects own) start events)
    (reached : run (step randoms) start events = some final) : final.Isolated randoms own := by
  have states : StatesMeet (step randoms) (Isolated randoms own) start events :=
    statesMeet_of_stepsMeet
      (fun isolated respects stepped => isolated.step respects stepped) isolated respected
  exact states.last reached

end Runs

/-- A server and a client on one host; the server's peer is read from while the client talks. -/
def twoConnections : List Event :=
  [.network (.createServer (some 0) ⟨3, 0, 0, 0, ⟨2, 0⟩⟩),
    .network (.accept 3 ⟨4, ⟨2, 0⟩, 0⟩),
    .network (.createClient "127.0.0.1" (some 1) 0 ⟨5, 0, ⟨2, 0⟩, 1⟩),
    .network (.read 4 [9, 9, 9, 9, 1, 2, 3]), .write 1 5 [65],
    .network (.read 5 [0, 0, 0, 0, 0, 0]), .write 0 4 [66], .network (.error 4 94),
    .write 1 7 [67], .network (.read 5 [0, 0])]

end Host

end SimpleModule
