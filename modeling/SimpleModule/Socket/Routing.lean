import SimpleModule.Socket.Network

/-!
# Owners of connections

The `Ledger` of a history is what an observer of the events writes down: the interface of
each listening socket, and for each descriptor the interface of the socket that accepted or
opened its current connection.  It knows nothing of the registries.

The result is that every event of a connection is told to the owner in the ledger and to
nobody else.
-/

namespace SimpleModule

open Octets

/-- The interfaces of the listening sockets and of the owners of connections. -/
structure Ledger where
  listener : ℤ → Option (Option ℕ)
  owner : ℤ → Option (Option ℕ)

namespace Ledger

open Network (Event ReadsBlocks)

def blank : Ledger := ⟨fun _ => none, fun _ => none⟩

/-- The entry for an event. -/
def record (ledger : Ledger) : Event → Ledger
  | .createServer packetClass results =>
      if results.Succeed then
        { ledger with
          listener := Function.update ledger.listener results.socket (some packetClass) }
      else ledger
  | .createClient _ packetClass _ results =>
      if results.Succeed then
        { ledger with owner := Function.update ledger.owner results.socket (some packetClass) }
      else ledger
  | .accept listenfd results =>
      if results.Succeed ∧ (ledger.listener listenfd).isSome then
        { ledger with
          owner := Function.update ledger.owner results.accept (ledger.listener listenfd) }
      else ledger
  | .read _ _ => ledger
  | .error vfd _ => { ledger with owner := Function.update ledger.owner vfd none }

abbrev of (history : List Event) : Ledger := Runs.after record blank history

/-- A call on the interface of a socket, if there is such a socket with an interface. -/
def told (socket : Option (Option ℕ)) (notice : Notice) : List InterfaceCall :=
  socket.join.toList.map fun interface => ⟨interface, notice⟩

/--
The calls that an event should make.  A new connection is told to its owner, what is read is
passed on in blocks, and an error is told once.
-/
def Routes (ledger : Ledger) : Event → List InterfaceCall → Prop
  | .createServer _ _, calls => calls = []
  | .createClient _ packetClass _ results, calls =>
      calls = if results.Succeed then told (some packetClass) (.onConnect results.socket) else []
  | .accept listenfd results, calls =>
      calls =
        if results.Succeed then told (ledger.listener listenfd) (.onConnect results.accept) else []
  | .read vfd data, calls =>
      ∃ blocks, ReadsBlocks data blocks ∧
        calls = blocks.flatMap fun block => told (ledger.owner vfd) (.onRead vfd block)
  | .error vfd _, calls => calls = told (ledger.owner vfd) (.onError vfd)

end Ledger

namespace Network

open Ledger (told)

/-- The interface of the socket that the registries name as the owner of a peer. -/
def owner (manager : SocketManager) (vfd : ℤ) : Option (Option ℕ) :=
  (manager.peerObjList vfd).bind fun peer =>
    match peer.vfdType with
    | .server => (manager.peerVfd2ServerObj vfd).map ServerSocket.packetClass
    | .client => (manager.peerVfd2ClientObj vfd).map ClientSocket.packetClass

theorem packetInterface_eq_join (manager : SocketManager) (vfd : ℤ) :
    manager.packetInterface vfd = (owner manager vfd).join := by
  rcases found : manager.peerObjList vfd with _ | ⟨own, _ | _, status, connection⟩
  · simp [SocketManager.packetInterface, owner, found]
  · rcases owned : manager.peerVfd2ServerObj vfd with _ | server <;>
      simp [SocketManager.packetInterface, owner, found, owned]
  · rcases owned : manager.peerVfd2ClientObj vfd with _ | client <;>
      simp [SocketManager.packetInterface, owner, found, owned]

theorem Intact.isSome_owner {network : Network} (intact : network.Intact) (vfd : ℤ) :
    (owner network.manager vfd).isSome = (network.manager.peerObjList vfd).isSome := by
  rcases intact.entry vfd with
    ⟨noPeer, -, -, -⟩ | ⟨_, _, peer, owned, -⟩ | ⟨_, _, -, peer, -, owned, -⟩
  · simp [owner, noPeer]
  · simp [owner, peer, owned]
  · simp [owner, peer, owned]

/-- The registries agree with the ledger. -/
structure Tracks (network : Network) (ledger : Ledger) : Prop where
  listener : ∀ vfd, ledger.listener vfd =
    (network.manager.serverObjList vfd).map ServerSocket.packetClass
  owned : ledger.owner = owner network.manager

theorem create_tracks : create.Tracks Ledger.blank where
  listener := fun _ => rfl
  owned := rfl

/-- An owner depends only on the registries of its descriptor. -/
theorem owner_of_same {manager next : SocketManager} {vfd : ℤ}
    (peers : next.peerObjList vfd = manager.peerObjList vfd)
    (servers : next.peerVfd2ServerObj vfd = manager.peerVfd2ServerObj vfd)
    (clients : next.peerVfd2ClientObj vfd = manager.peerVfd2ClientObj vfd) :
    owner next vfd = owner manager vfd := by
  simp only [owner, peers, servers, clients]

theorem owner_accepted (network : Network) (server : ServerSocket) (fd : ℤ) (connection : ℕ) :
    owner (network.accepted server fd connection).manager =
      Function.update (owner network.manager) fd (some server.packetClass) := by
  funext vfd
  by_cases same : vfd = fd
  · simp [owner, accepted, notify, same]
  · rw [Function.update_of_ne same]
    exact owner_of_same (Function.update_of_ne same _ _) (Function.update_of_ne same _ _) rfl

theorem owner_connected (network : Network) (client : ClientSocket) (fd : ℤ) (connection : ℕ) :
    owner (network.connected client fd connection).manager =
      Function.update (owner network.manager) fd (some client.packetClass) := by
  funext vfd
  by_cases same : vfd = fd
  · simp [owner, connected, notify, same]
  · rw [Function.update_of_ne same]
    exact owner_of_same (Function.update_of_ne same _ _) rfl (Function.update_of_ne same _ _)

theorem owner_disconnected (network : Network) (fd stale : ℤ) :
    owner (network.disconnected fd stale).manager =
      Function.update (owner network.manager) fd none := by
  funext vfd
  by_cases same : vfd = fd
  · simp [owner, disconnected, notify, same]
  · rw [Function.update_of_ne same]
    exact owner_of_same (Function.update_of_ne same _ _) (Function.update_of_ne same _ _)
      (Function.update_of_ne same _ _)

/-- One event: its calls are the right ones, and the ledger stays up to date. -/
def Tells (network : Network) (ledger : Ledger) (event : Event) : Prop :=
  ∃ calls, (network.step event).calls = network.calls ++ calls ∧ ledger.Routes event calls ∧
    (network.step event).Tracks (ledger.record event)

namespace Tracks

variable {network : Network} {ledger : Ledger}

theorem createServer (tracks : network.Tracks ledger) (intact : network.Intact)
    {packetClass : Option ℕ} {results : StartResults}
    (unopened : network.Unopened (.createServer packetClass results)) :
    network.Tells ledger (.createServer packetClass results) := by
  rw [Tells, intact.step_eq_reaction unopened]
  simp only [reaction, Ledger.record]
  refine ⟨[], ?_, rfl, ?_⟩
  · split_ifs <;> simp [listened, opens]
  · split_ifs
    · constructor
      · intro vfd
        by_cases same : vfd = results.socket
        · simp [listened, same]
        · simp [listened, same, tracks.listener vfd]
      · exact tracks.owned
    · exact tracks

theorem createClient (tracks : network.Tracks ledger) (intact : network.Intact) {ip : String}
    {packetClass : Option ℕ} {address : ℕ} {results : ConnectResults}
    (unopened : network.Unopened (.createClient ip packetClass address results)) :
    network.Tells ledger (.createClient ip packetClass address results) := by
  rw [Tells, intact.step_eq_reaction unopened]
  simp only [reaction, Ledger.record, Ledger.Routes]
  by_cases refused : results.FailToConnect
  · have fails : ¬results.Succeed := fun succeed => not_lt.mpr succeed.2.1 refused.2
    simp only [if_pos refused, if_neg fails]
    exact ⟨[], by simp [opens], rfl, tracks.listener, tracks.owned⟩
  · simp only [if_neg refused]
    by_cases succeed : results.Succeed
    · simp only [if_pos succeed]
      refine ⟨_, rfl, rfl, tracks.listener, ?_⟩
      rw [owner_connected, tracks.owned]
    · simp only [if_neg succeed]
      exact ⟨[], by simp, rfl, tracks⟩

theorem accept (tracks : network.Tracks ledger) (intact : network.Intact) {listenfd : ℤ}
    {results : AcceptResults} (unopened : network.Unopened (.accept listenfd results)) :
    network.Tells ledger (.accept listenfd results) := by
  have listener := tracks.listener listenfd
  rw [Tells, intact.step_eq_reaction unopened]
  rcases found : network.manager.serverObjList listenfd with _ | server
  · rw [found, Option.map_none] at listener
    simp only [reaction, found, Ledger.record, Ledger.Routes, listener]
    exact ⟨[], by simp, by simp [told], by simpa using tracks⟩
  · rw [found, Option.map_some] at listener
    simp only [reaction, found, Ledger.record, Ledger.Routes, listener, Option.isSome_some,
      and_true]
    by_cases succeed : results.Succeed
    · simp only [if_pos succeed]
      refine ⟨_, rfl, rfl, tracks.listener, ?_⟩
      rw [owner_accepted, tracks.owned]
    · simp only [if_neg succeed]
      exact ⟨[], by simp, rfl, tracks⟩

theorem read (tracks : network.Tracks ledger) (intact : network.Intact) (vfd : ℤ) (data : Bytes) :
    network.Tells ledger (.read vfd data) := by
  have same := network.onRead_same vfd data
  have next : (network.step (.read vfd data)).Tracks (ledger.record (.read vfd data)) := by
    simp only [Network.step, Ledger.record]
    constructor
    · rw [same.1]
      exact tracks.listener
    · rw [same.1]
      exact tracks.owned
  have reads := readsBlocks_readBlocks data
  rcases found : network.manager.peerObjList vfd with _ | peer
  · have unowned : ledger.owner vfd = none := by
      rw [tracks.owned, owner, found]
      rfl
    refine ⟨[], ?_, ⟨readBlocks data, reads, by simp [told, unowned]⟩, next⟩
    simp [Network.step, onRead, found]
  · have live := intact.live found
    refine ⟨_, ?_, ⟨readBlocks data, reads, rfl⟩, next⟩
    simp only [Network.step, onRead, found, if_pos live.2, live.1, onReadLoop_eq,
      packetInterface_eq_join, ← tracks.owned]
    rfl

theorem error (tracks : network.Tracks ledger) (intact : network.Intact) (vfd stale : ℤ) :
    network.Tells ledger (.error vfd stale) := by
  rw [Tells, intact.step_error vfd stale]
  simp only [reaction, Ledger.record, Ledger.Routes]
  by_cases registered : (network.manager.peerObjList vfd).isSome
  · simp only [if_pos registered]
    refine ⟨_, rfl, ?_, tracks.listener, ?_⟩
    · rw [packetInterface_eq_join, tracks.owned]
      rfl
    · rw [owner_disconnected, tracks.owned]
  · have unowned : ledger.owner vfd = none := by
      rw [tracks.owned, ← Option.not_isSome_iff_eq_none, intact.isSome_owner]
      exact registered
    simp only [if_neg registered, unowned]
    refine ⟨[], by simp, rfl, tracks.listener, ?_⟩
    rw [← unowned, Function.update_eq_self, tracks.owned]

theorem step (tracks : network.Tracks ledger) (intact : network.Intact) {event : Event}
    (unopened : network.Unopened event) : network.Tells ledger event := by
  cases event with
  | createServer packetClass results => exact tracks.createServer intact unopened
  | createClient ip packetClass address results => exact tracks.createClient intact unopened
  | accept listenfd results => exact tracks.accept intact unopened
  | read vfd data => exact tracks.read intact vfd data
  | error vfd stale => exact tracks.error intact vfd stale

end Tracks

theorem tracks_after {history : List Event} (fresh : FreshHistory history) :
    (after history).Tracks (Ledger.of history) := by
  induction history using List.reverseRecOn with
  | nil => exact create_tracks
  | append_singleton history event ih =>
      rw [FreshHistory, Runs.allowed_append_singleton] at fresh
      rw [after, Ledger.of, Runs.after_append_singleton, Runs.after_append_singleton]
      rcases (ih fresh.1).step (FreshHistory.intact fresh.1) fresh.2.1 with ⟨calls, -, -, tracks⟩
      exact tracks

end Network

end SimpleModule
