import SimpleModule.Socket.Network

/-!
# Registries and descriptors

After every history of events the registries of the socket manager fit together and do not
know closed descriptors.  Two events forget a descriptor that is still open.  `Connect` does
so when it cannot reach the server, and `OnError` when the memory of the peer that it has just
deleted no longer holds the descriptor.  Without such events all open descriptors are listening
sockets or peers.
-/

namespace SimpleModule

namespace Network

/-- How the registries fit together. -/
structure Consistent (network : Network) : Prop where
  peers : ∀ vfd, (network.manager.peerObjList vfd).isSome ↔
    (network.manager.peerVfd2ServerObj vfd).isSome ∨
      (network.manager.peerVfd2ClientObj vfd).isSome
  disjoint : ∀ vfd, ¬((network.manager.peerVfd2ServerObj vfd).isSome ∧
    (network.manager.peerVfd2ClientObj vfd).isSome)
  typed : ∀ vfd peer, network.manager.peerObjList vfd = some peer →
    (peer.vfdType = .server ↔ (network.manager.peerVfd2ServerObj vfd).isSome)
  clients : ∀ vfd, network.manager.clientObjList vfd = network.manager.peerVfd2ClientObj vfd
  servers : ∀ vfd server, network.manager.peerVfd2ServerObj vfd = some server →
    ∃ key, network.manager.serverObjList key = some server
  closed : ∀ vfd, vfd ∉ network.opened →
    network.manager.serverObjList vfd = none ∧ network.manager.clientObjList vfd = none ∧
      network.manager.peerObjList vfd = none ∧ network.manager.peerVfd2ServerObj vfd = none ∧
      network.manager.peerVfd2ClientObj vfd = none ∧
      ∀ written, network.peerVfdOnWrite vfd written = false

theorem Intact.consistent {network : Network} (intact : network.Intact) : network.Consistent where
  peers := by
    intro vfd
    rcases intact.entry vfd with
      ⟨noPeer, noServer, noOwner, -⟩ | ⟨_, _, peer, owner, -⟩ | ⟨_, _, -, peer, -, owner, -⟩
    · simp [noPeer, noServer, noOwner]
    · simp [peer, owner]
    · simp [peer, owner]
  disjoint := by
    intro vfd
    rcases intact.entry vfd with
      ⟨-, noServer, -, -⟩ | ⟨_, _, -, -, -, noOwner, -⟩ | ⟨_, _, -, -, noServer, -, -⟩
    · simp [noServer]
    · simp [noOwner]
    · simp [noServer]
  typed := by
    intro vfd peer found
    rcases intact.entry vfd with
      ⟨noPeer, -, -, -⟩ | ⟨_, _, own, owner, -⟩ | ⟨_, _, -, own, noServer, -, -⟩
    · rw [noPeer] at found
      cases found
    · rw [own, Option.some.injEq] at found
      simp [← found, owner]
    · rw [own, Option.some.injEq] at found
      simp [← found, noServer]
  clients := by
    intro vfd
    rcases intact.entry vfd with
      ⟨-, -, noOwner, noClient⟩ | ⟨_, _, -, -, -, noOwner, noClient⟩ |
      ⟨_, _, -, -, -, owner, listed⟩
    · rw [noOwner, noClient]
    · rw [noOwner, noClient]
    · rw [owner, listed]
  servers := by
    intro vfd server found
    rcases intact.entry vfd with
      ⟨-, noServer, -, -⟩ | ⟨other, _, -, owner, listens, -⟩ | ⟨_, _, -, -, noServer, -, -⟩
    · rw [noServer] at found
      cases found
    · rw [owner, Option.some.injEq] at found
      exact ⟨other.vfd, found ▸ listens⟩
    · rw [noServer] at found
      cases found
  closed := by
    intro vfd fresh
    rcases intact.absent_of_fresh fresh with ⟨noListener, noPeer, noServer, noOwner, noClient⟩
    refine ⟨noListener, noClient, noPeer, noServer, noOwner, ?_⟩
    intro written
    simp [peerVfdOnWrite, SocketManager.peerVfdOnWrite, noPeer]

/-- The open descriptors are those of the listening sockets and the peers. -/
def Balanced (network : Network) : Prop :=
  ∀ vfd, vfd ∈ network.opened ↔
    (network.manager.serverObjList vfd).isSome ∨ (network.manager.peerObjList vfd).isSome

/-- The event is the creation of a socket, and its result is `NULL`. -/
def ReturnsNull (network : Network) : Event → Prop
  | .createServer packetClass results => (network.createServerSocket packetClass results).2 = none
  | .createClient ip packetClass address results =>
      (network.createClientSocket ip packetClass address results).2 = none
  | _ => False

/-- No event of the history leaves a descriptor open that no registry knows. -/
def LeaksNothing (history : List Event) : Prop :=
  (∀ front, front <+: history → (after front).Balanced) ∧
    ∀ front event, front ++ [event] <+: history → (after front).ReturnsNull event →
      (after (front ++ [event])).opened = (after front).opened

/-- The event leaves a descriptor open that it does not enter anywhere or takes out. -/
def Forgets (network : Network) : Event → Prop
  | .createClient _ _ _ results => results.FailToConnect
  | .error vfd stale => (network.manager.peerObjList vfd).isSome ∧ stale ≠ vfd
  | _ => False

instance (network : Network) : (event : Event) → Decidable (network.Forgets event)
  | .createServer _ _ => isFalse id
  | .createClient _ _ _ results => inferInstanceAs (Decidable results.FailToConnect)
  | .accept _ _ => isFalse id
  | .read _ _ => isFalse id
  | .error _ _ => inferInstanceAs (Decidable (_ ∧ _))

/-- No event of the history forgets a descriptor. -/
abbrev ForgetsNothing (history : List Event) : Prop :=
  Runs.Allowed step (fun network event => ¬network.Forgets event) create history

theorem create_balanced : create.Balanced := by
  intro vfd
  simp [create, SocketManager.create]

theorem Balanced.of_same {network next : Network} (balanced : network.Balanced)
    (manager : next.manager = network.manager) (opened : next.opened = network.opened) :
    next.Balanced := by
  intro vfd
  rw [manager, opened]
  exact balanced vfd

theorem Balanced.listened {network : Network} (balanced : network.Balanced)
    (server : ServerSocket) : (network.listened server).Balanced := by
  intro vfd
  by_cases same : vfd = server.vfd
  · simp [Network.listened, opens, same]
  · simp [Network.listened, opens, same, balanced vfd]

theorem Balanced.accepted {network : Network} (balanced : network.Balanced)
    (server : ServerSocket) (fd : ℤ) (connection : ℕ) :
    (network.accepted server fd connection).Balanced := by
  intro vfd
  by_cases same : vfd = fd
  · simp [Network.accepted, opens, notify, same]
  · simp [Network.accepted, opens, notify, same, balanced vfd]

theorem Balanced.connected {network : Network} (balanced : network.Balanced)
    (client : ClientSocket) (fd : ℤ) (connection : ℕ) :
    (network.connected client fd connection).Balanced := by
  intro vfd
  by_cases same : vfd = fd
  · simp [Network.connected, opens, notify, same]
  · simp [Network.connected, opens, notify, same, balanced vfd]

theorem Balanced.disconnected {network : Network} (balanced : network.Balanced)
    (intact : network.Intact) {fd : ℤ} (registered : (network.manager.peerObjList fd).isSome) :
    (network.disconnected fd fd).Balanced := by
  intro vfd
  by_cases same : vfd = fd
  · have noListener : network.manager.serverObjList fd = none := by
      rcases found : network.manager.serverObjList fd with _ | server
      · rfl
      · rw [(intact.listening fd server found).2.2] at registered
        cases registered
    simp [Network.disconnected, close, notify, same, noListener]
  · simp [Network.disconnected, close, notify, same, balanced vfd]

/-- Every other event keeps the balance. -/
theorem Balanced.step {network : Network} (balanced : network.Balanced) (intact : network.Intact)
    {event : Event} (unopened : network.Unopened event) (keeps : ¬network.Forgets event) :
    (network.step event).Balanced := by
  rw [intact.step_eq_reaction unopened]
  cases event with
  | createServer packetClass results =>
      simp only [reaction]
      split_ifs
      · exact balanced.listened _
      · exact balanced
  | createClient ip packetClass address results =>
      simp only [reaction, if_neg (show ¬results.FailToConnect from keeps)]
      split_ifs
      · exact balanced.connected _ _ _
      · exact balanced
  | accept listenfd results =>
      rcases found : network.manager.serverObjList listenfd with _ | server
      · simpa only [reaction, found] using balanced
      · simp only [reaction, found]
        split_ifs
        · exact balanced.accepted _ _ _
        · exact balanced
  | read vfd data =>
      have same := network.onRead_same vfd data
      exact balanced.of_same same.1 same.2
  | error vfd stale =>
      simp only [reaction]
      split_ifs with registered
      · have own : stale = vfd := not_not.mp fun other => keeps ⟨registered, other⟩
        rw [own]
        exact balanced.disconnected intact registered
      · exact balanced

theorem createServerSocket_of_succeed (network : Network) (packetClass : Option ℕ)
    {results : StartResults} (succeed : results.Succeed) :
    (network.createServerSocket packetClass results).2 = some ⟨results.socket, packetClass⟩ := by
  rcases succeed with ⟨nonneg, setsockopt, bind, listen, fcntl⟩
  simp only [createServerSocket, start, if_neg (not_lt.mpr nonneg), if_neg setsockopt,
    if_neg (not_lt.mpr bind), if_neg (not_not.mpr listen), if_neg fcntl]

theorem createClientSocket_of_succeed (network : Network) (ip : String) (packetClass : Option ℕ)
    (address : ℕ) {results : ConnectResults} (succeed : results.Succeed) :
    (network.createClientSocket ip packetClass address results).2 =
      some ⟨address, -1, packetClass⟩ := by
  rcases succeed with ⟨nonneg, reachable, fcntl⟩
  simp only [createClientSocket, connect, if_neg (not_lt.mpr nonneg), if_neg (not_lt.mpr reachable),
    if_neg fcntl]

/-- A creation that fails otherwise changes nothing. -/
theorem Intact.step_of_returnsNull {network : Network} (intact : network.Intact) {event : Event}
    (unopened : network.Unopened event) (null : network.ReturnsNull event)
    (keeps : ¬network.Forgets event) : network.step event = network := by
  rw [intact.step_eq_reaction unopened]
  cases event with
  | createServer packetClass results =>
      have fails : ¬results.Succeed := by
        intro succeed
        rw [ReturnsNull, createServerSocket_of_succeed _ _ succeed] at null
        cases null
      simp only [reaction, if_neg fails]
  | createClient ip packetClass address results =>
      have fails : ¬results.Succeed := by
        intro succeed
        rw [ReturnsNull, createClientSocket_of_succeed _ _ _ _ succeed] at null
        cases null
      simp only [reaction, if_neg (show ¬results.FailToConnect from keeps), if_neg fails]
  | accept listenfd results => exact absurd null id
  | read vfd data => exact absurd null id
  | error vfd stale => exact absurd null id

/-- An event that forgets a descriptor leaves it open and in no registry. -/
theorem Intact.not_balanced_of_forgets {network : Network} (intact : network.Intact)
    {event : Event} (unopened : network.Unopened event) (forgets : network.Forgets event) :
    ¬(network.step event).Balanced := by
  rw [intact.step_eq_reaction unopened]
  cases event with
  | createClient ip packetClass address results =>
      have refused : results.FailToConnect := forgets
      rcases intact.absent_of_fresh (unopened refused.1) with ⟨noListener, noPeer, -⟩
      simp only [reaction, if_pos refused]
      intro balanced
      have known := (balanced results.socket).mp (Finset.mem_insert_self _ _)
      simp [Network.opens, noListener, noPeer] at known
  | error vfd stale =>
      rcases forgets with ⟨registered, other⟩
      simp only [reaction, if_pos registered]
      intro balanced
      have remains : vfd ∈ network.opened.erase stale :=
        Finset.mem_erase_of_ne_of_mem (Ne.symm other) (intact.peer vfd registered)
      have known := (balanced vfd).mp remains
      rcases found : network.manager.serverObjList vfd with _ | server
      · simp [Network.disconnected, notify, found] at known
      · rw [(intact.listening vfd server found).2.2] at registered
        cases registered
  | createServer packetClass results => exact absurd forgets id
  | accept listenfd results => exact absurd forgets id
  | read vfd data => exact absurd forgets id

/-- An event that forgets nothing closes no descriptor of another peer. -/
theorem Unopened.fresh {network : Network} {event : Event} (unopened : network.Unopened event)
    (keeps : ¬network.Forgets event) : network.Fresh event := by
  refine ⟨unopened, ?_⟩
  cases event with
  | error vfd stale => exact fun registered => .inl (not_not.mp fun other =>
      keeps ⟨registered, other⟩)
  | createServer packetClass results => trivial
  | createClient ip packetClass address results => trivial
  | accept listenfd results => trivial
  | read vfd data => trivial

theorem intact_after {history : List Event} (unopened : UnopenedHistory history)
    (keeps : ForgetsNothing history) : (after history).Intact := by
  induction history using List.reverseRecOn with
  | nil => exact create_intact
  | append_singleton history event ih =>
      rw [UnopenedHistory, Runs.allowed_append_singleton] at unopened
      rw [ForgetsNothing, Runs.allowed_append_singleton] at keeps
      rw [after, Runs.after_append_singleton]
      exact (ih unopened.1 keeps.1).step (unopened.2.fresh keeps.2)

theorem balanced_after {history : List Event} (unopened : UnopenedHistory history)
    (keeps : ForgetsNothing history) : (after history).Balanced := by
  induction history using List.reverseRecOn with
  | nil => exact create_balanced
  | append_singleton history event ih =>
      rw [UnopenedHistory, Runs.allowed_append_singleton] at unopened
      rw [ForgetsNothing, Runs.allowed_append_singleton] at keeps
      rw [after, Runs.after_append_singleton]
      exact (ih unopened.1 keeps.1).step (intact_after unopened.1 keeps.1) unopened.2 keeps.2

theorem forgetsNothing_of_balanced {history : List Event} (unopened : UnopenedHistory history)
    (balanced : ∀ front, front <+: history → (after front).Balanced) :
    ForgetsNothing history := by
  induction history using List.reverseRecOn with
  | nil => trivial
  | append_singleton history event ih =>
      rw [UnopenedHistory, Runs.allowed_append_singleton] at unopened
      have keeps : ForgetsNothing history := ih unopened.1 fun front before =>
        balanced front (before.trans (List.prefix_append _ _))
      rw [ForgetsNothing, Runs.allowed_append_singleton]
      refine ⟨keeps, ?_⟩
      intro forgets
      apply (intact_after unopened.1 keeps).not_balanced_of_forgets unopened.2 forgets
      have last := balanced _ List.prefix_rfl
      rwa [after, Runs.after_append_singleton] at last

/--
Descriptors leak exactly when a client socket fails to connect or a peer is lost whose freed
memory no longer holds its descriptor.
-/
theorem leaksNothing_iff {history : List Event} (unopened : UnopenedHistory history) :
    LeaksNothing history ↔ ForgetsNothing history := by
  constructor
  · rintro ⟨balanced, -⟩
    exact forgetsNothing_of_balanced unopened balanced
  · intro keeps
    constructor
    · intro front before
      exact balanced_after (unopened.of_beginning before) (keeps.of_beginning before)
    · intro front event before null
      have known := Runs.allowed_append_singleton.mp (unopened.of_beginning before)
      have kept := Runs.allowed_append_singleton.mp (keeps.of_beginning before)
      rw [after, Runs.after_append_singleton,
        (intact_after known.1 kept.1).step_of_returnsNull known.2 null kept.2]

/-- A server socket that cannot be bound, another one with a connection, and a failed `accept`. -/
theorem leaksNothing_bind_fails :
    LeaksNothing [.createServer (some 0) ⟨3, 0, -1, 0, ⟨2, 0⟩⟩,
      .createServer (some 0) ⟨3, 0, 0, 0, ⟨2, 0⟩⟩, .accept 3 ⟨4, ⟨2, 0⟩, 0⟩,
      .accept 3 ⟨5, ⟨-1, 0⟩, 1⟩] := by
  apply (leaksNothing_iff (by decide)).mpr
  decide

/-- One failed connection is enough. -/
theorem not_leaksNothing_connect_fails :
    ¬LeaksNothing [.createClient "127.0.0.1" (some 0) 0 ⟨3, -1, ⟨2, 0⟩, 0⟩] := by
  rintro ⟨-, unchanged⟩
  have same := unchanged [] (.createClient "127.0.0.1" (some 0) 0 ⟨3, -1, ⟨2, 0⟩, 0⟩)
    List.prefix_rfl rfl
  revert same
  decide

end Network

end SimpleModule
