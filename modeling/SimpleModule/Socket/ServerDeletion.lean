import SimpleModule.Lib.Exits
import SimpleModule.Lib.OrderedMap
import SimpleModule.Socket.Registries

/-!
# Deleting a server socket

`DelServerVfd` walks through `PeerVfd2ServerObj` with an iterator, closes the peers of the
server and calls `DelPeerVfd` for each of them.  `DelPeerVfd` erases the entry that the
iterator stands at, and the loop advances the iterator and erases the entry only after that.

The maps are ordered here, since the order is what an iterator follows; `toNetwork` forgets
it.  The use of an iterator whose entry is gone is a fault.
-/

namespace SimpleModule

open Exits

namespace SocketManager

/-- The peer with the descriptor `vfd` was accepted by the server with `serverVfd`. -/
def belongsTo (manager : SocketManager) (serverVfd vfd : ℤ) : Bool :=
  (manager.peerVfd2ServerObj vfd).any fun server => server.vfd = serverVfd

theorem belongsTo_eq_true {manager : SocketManager} {serverVfd vfd : ℤ} :
    manager.belongsTo serverVfd vfd = true ↔
      ∃ server, manager.peerVfd2ServerObj vfd = some server ∧ server.vfd = serverVfd := by
  simp [belongsTo, Option.any_eq_true]

/-- What should be left of the registries when a server is deleted with its peers. -/
def withoutServer (manager : SocketManager) (serverVfd : ℤ) : SocketManager :=
  { manager with
    serverObjList := Function.update manager.serverObjList serverVfd none
    peerObjList := fun vfd =>
      if manager.belongsTo serverVfd vfd then none else manager.peerObjList vfd
    peerVfd2ServerObj := fun vfd =>
      if manager.belongsTo serverVfd vfd then none else manager.peerVfd2ServerObj vfd }

/-- A server without peers leaves everything but its own entry. -/
theorem withoutServer_of_others {manager : SocketManager} {serverVfd : ℤ}
    (others : ∀ vfd, manager.belongsTo serverVfd vfd = false) :
    manager.withoutServer serverVfd =
      { manager with serverObjList := Function.update manager.serverObjList serverVfd none } := by
  simp [withoutServer, others]

end SocketManager

/-- The maps of `SocketManager` with their entries in order. -/
structure SocketMaps where
  serverObjList : OrderedMap ℤ ServerSocket
  clientObjList : OrderedMap ℤ ClientSocket
  peerObjList : OrderedMap ℤ PeerPoint
  peerVfd2ServerObj : OrderedMap ℤ ServerSocket
  peerVfd2ClientObj : OrderedMap ℤ ClientSocket

namespace SocketMaps

def toManager (maps : SocketMaps) : SocketManager where
  serverObjList := maps.serverObjList.find
  clientObjList := maps.clientObjList.find
  peerObjList := maps.peerObjList.find
  peerVfd2ServerObj := maps.peerVfd2ServerObj.find
  peerVfd2ClientObj := maps.peerVfd2ClientObj.find

/-- `SocketManager::DelPeerVfd`, with `DelClientVfd` for a client's descriptor. -/
def delPeerVfd (maps : SocketMaps) (peerVfd : ℤ) (delType : VfdType) : SocketMaps :=
  let removed := { maps with peerObjList := maps.peerObjList.erase peerVfd }
  match delType with
  | .server => { removed with peerVfd2ServerObj := maps.peerVfd2ServerObj.erase peerVfd }
  | .client =>
      if (maps.peerVfd2ClientObj.find peerVfd).isSome then
        { removed with
          peerVfd2ClientObj := maps.peerVfd2ClientObj.erase peerVfd
          clientObjList := maps.clientObjList.erase peerVfd }
      else removed

theorem toManager_delPeerVfd (maps : SocketMaps) (peerVfd : ℤ) (delType : VfdType) :
    (maps.delPeerVfd peerVfd delType).toManager = maps.toManager.delPeerVfd peerVfd delType := by
  cases delType with
  | server => simp [delPeerVfd, SocketManager.delPeerVfd, toManager, OrderedMap.find_erase]
  | client =>
      by_cases registered : (maps.peerVfd2ClientObj.find peerVfd).isSome
      · simp [delPeerVfd, SocketManager.delPeerVfd, toManager, registered, OrderedMap.find_erase]
      · simp [delPeerVfd, SocketManager.delPeerVfd, toManager, registered, OrderedMap.find_erase]

end SocketMaps

/-- A network whose maps are ordered. -/
structure MappedNetwork where
  maps : SocketMaps
  opened : Finset ℤ
  calls : List InterfaceCall

namespace MappedNetwork

def toNetwork (network : MappedNetwork) : Network :=
  ⟨network.maps.toManager, network.opened, network.calls⟩

/-- The system call `close`. -/
def close (network : MappedNetwork) (fd : ℤ) : MappedNetwork :=
  { network with opened := network.opened.erase fd }

def delPeerVfd (network : MappedNetwork) (peerVfd : ℤ) (delType : VfdType) : MappedNetwork :=
  { network with maps := network.maps.delPeerVfd peerVfd delType }

/-- The server socket that an iterator of `PeerVfd2ServerObj` shows as `Iter->second`. -/
def second (iter : ℤ) : Program MappedNetwork ServerSocket :=
  .require fun network => network.maps.peerVfd2ServerObj.find iter

/-- The operator `++` on an iterator of `PeerVfd2ServerObj`. -/
def advance (iter : ℤ) : Program MappedNetwork (Option ℤ) :=
  .require fun network => network.maps.peerVfd2ServerObj.next iter

/-- `PeerVfd2ServerObj.erase` for an iterator. -/
def eraseAt (iter : ℤ) : Program MappedNetwork PUnit := do
  let _ ← second iter
  .modify fun network =>
    { network with
      maps := { network.maps with
        peerVfd2ServerObj := network.maps.peerVfd2ServerObj.erase iter } }

/-- The loop of `DelServerVfd`; its fuel is one more than the number of entries to visit. -/
def delServerLoop (serverVfd : ℤ) :
    (fuel : ℕ) → (iter : Option ℤ) → Program MappedNetwork PUnit
  | 0, _ => .exit .abort
  | _ + 1, none => pure ⟨⟩
  | fuel + 1, some iter => do
      let server ← second iter
      if server.vfd = serverVfd then
        let peerVfd := iter
        .modify fun network => network.close peerVfd
        .modify fun network => network.delPeerVfd peerVfd .server
        -- `erase(Iter++)` erases the old value of the iterator after it is advanced
        let later ← advance iter
        eraseAt iter
        delServerLoop serverVfd fuel later
      else
        let later ← advance iter
        delServerLoop serverVfd fuel later

/-- `SocketManager::DelServerVfd`; a `clsServerSocket` has no destructor. -/
def delServerVfd (serverVfd : ℤ) : Program MappedNetwork Bool := do
  let entries ← .get fun network => network.maps.peerVfd2ServerObj.entries
  let iter ← .get fun network => network.maps.peerVfd2ServerObj.first
  delServerLoop serverVfd (entries.length + 1) iter
  let listed ← .get fun network => (network.maps.serverObjList.find serverVfd).isSome
  if listed then
    .modify fun network =>
      { network with
        maps := { network.maps with
          serverObjList := network.maps.serverObjList.erase serverVfd } }
  return true

/-! ## The loop -/

section Loop

variable {network : MappedNetwork} {visited rest : List (ℤ × ServerSocket)}
  {entry : ℤ × ServerSocket} {serverVfd : ℤ}

theorem second_of_split
    (split : network.maps.peerVfd2ServerObj.entries = visited ++ entry :: rest) :
    second entry.1 network = (.ret entry.2, network) := by
  apply Program.require_of_some
  apply OrderedMap.find_eq_some_iff.mpr
  rw [split]
  exact List.mem_append_right _ (List.mem_cons_self ..)

theorem advance_of_split
    (split : network.maps.peerVfd2ServerObj.entries = visited ++ entry :: rest) :
    advance entry.1 network = (.ret (rest.head?.map Prod.fst), network) :=
  Program.require_of_some (OrderedMap.next_of_split split)

/-- A peer of another server is passed over. -/
theorem delServerLoop_other
    (split : network.maps.peerVfd2ServerObj.entries = visited ++ entry :: rest)
    (other : entry.2.vfd ≠ serverVfd) (fuel : ℕ) :
    delServerLoop serverVfd (fuel + 1) (some entry.1) network =
      delServerLoop serverVfd fuel (rest.head?.map Prod.fst) network := by
  rw [delServerLoop, Program.bind_of_ret (second_of_split split),
    if_neg other, Program.bind_of_ret (advance_of_split split)]

/-- At a peer of the server the iterator is advanced after its entry is erased. -/
theorem delServerLoop_own
    (split : network.maps.peerVfd2ServerObj.entries = visited ++ entry :: rest)
    (own : entry.2.vfd = serverVfd) (fuel : ℕ) :
    delServerLoop serverVfd (fuel + 1) (some entry.1) network =
      (.fault, (network.close entry.1).delPeerVfd entry.1 .server) := by
  have invalid : advance entry.1 ((network.close entry.1).delPeerVfd entry.1 .server) =
      (.fault, (network.close entry.1).delPeerVfd entry.1 .server) :=
    Program.require_of_none (OrderedMap.next_erase _ _)
  rw [delServerLoop, Program.bind_of_ret (second_of_split split),
    if_pos own, Program.bind_of_ret (Program.modify_apply _ _),
    Program.bind_of_ret (Program.modify_apply _ _), Program.bind_of_fault invalid]

/-- Without a peer of the server the loop ends and has changed nothing. -/
theorem delServerLoop_of_others {fuel : ℕ}
    (split : network.maps.peerVfd2ServerObj.entries = visited ++ rest)
    (others : ∀ entry ∈ rest, entry.2.vfd ≠ serverVfd) (enough : rest.length < fuel) :
    delServerLoop serverVfd fuel (rest.head?.map Prod.fst) network = (.ret ⟨⟩, network) := by
  -- the iterator stands at the first of the entries that are not visited yet
  induction rest generalizing visited fuel with
  | nil =>
      rcases fuel with _ | fuel
      · cases enough
      · rfl
  | cons entry rest ih =>
      rcases fuel with _ | fuel
      · cases enough
      · rw [List.head?_cons, Option.map_some,
          delServerLoop_other split (others entry (List.mem_cons_self ..))]
        apply @ih (visited ++ [entry])
        · simpa using split
        · intro later member
          exact others later (List.mem_cons_of_mem _ member)
        · exact Nat.lt_of_succ_lt_succ enough

/-- The first peer of the server ends the loop with a fault. -/
theorem delServerLoop_of_own {fuel : ℕ}
    (split : network.maps.peerVfd2ServerObj.entries = visited ++ rest)
    (own : ∃ entry ∈ rest, entry.2.vfd = serverVfd) (enough : rest.length < fuel) :
    (delServerLoop serverVfd fuel (rest.head?.map Prod.fst) network).1 = .fault := by
  induction rest generalizing visited fuel with
  | nil =>
      rcases own with ⟨entry, member, -⟩
      cases member
  | cons entry rest ih =>
      rcases fuel with _ | fuel
      · cases enough
      · rw [List.head?_cons, Option.map_some]
        by_cases first : entry.2.vfd = serverVfd
        · rw [delServerLoop_own split first]
        · rw [delServerLoop_other split first]
          apply @ih (visited ++ [entry])
          · simpa using split
          · rcases own with ⟨later, member, same⟩
            rcases List.mem_cons.mp member with rfl | behind
            · exact absurd same first
            · exact ⟨later, behind, same⟩
          · exact Nat.lt_of_succ_lt_succ enough

end Loop

/-! ## The whole function -/

/-- `DelServerVfd` returns and has deleted the server, its peers and nothing else. -/
def DeletesExactly (network : MappedNetwork) (serverVfd : ℤ) : Prop :=
  ∃ final, delServerVfd serverVfd network = (.ret true, final) ∧
    final.maps.toManager = network.maps.toManager.withoutServer serverVfd

section Deletion

variable {network : MappedNetwork} {serverVfd : ℤ}

/-- A server without peers is taken out of `ServerObjList`, and its descriptor stays open. -/
theorem delServerVfd_of_others
    (others : ∀ vfd, network.maps.toManager.belongsTo serverVfd vfd = false) :
    ∃ final, delServerVfd serverVfd network = (.ret true, final) ∧
      final.toNetwork =
        ⟨network.maps.toManager.withoutServer serverVfd, network.opened, network.calls⟩ := by
  have passed : delServerLoop serverVfd (network.maps.peerVfd2ServerObj.entries.length + 1)
      network.maps.peerVfd2ServerObj.first network = (.ret ⟨⟩, network) := by
    apply delServerLoop_of_others (List.nil_append _).symm _ (Nat.lt_succ_self _)
    intro entry member own
    have belongs : network.maps.toManager.belongsTo serverVfd entry.1 = true :=
      SocketManager.belongsTo_eq_true.mpr
        ⟨entry.2, OrderedMap.find_eq_some_iff.mpr member, own⟩
    rw [others] at belongs
    cases belongs
  rw [SocketManager.withoutServer_of_others others, delServerVfd,
    Program.bind_of_ret (Program.get_apply _ _), Program.bind_of_ret (Program.get_apply _ _),
    Program.bind_of_ret passed, Program.bind_of_ret (Program.get_apply _ _)]
  by_cases listed : (network.maps.serverObjList.find serverVfd).isSome
  · rw [if_pos listed]
    refine ⟨_, rfl, ?_⟩
    simp [toNetwork, SocketMaps.toManager, OrderedMap.find_erase]
  · rw [if_neg listed]
    refine ⟨_, rfl, ?_⟩
    have absent : network.maps.serverObjList.find serverVfd = none := by simpa using listed
    simp [toNetwork, SocketMaps.toManager, ← absent]

/-- A server with a peer is not deleted: the program uses an iterator that is not valid. -/
theorem delServerVfd_of_peer {vfd : ℤ}
    (own : network.maps.toManager.belongsTo serverVfd vfd = true) :
    (delServerVfd serverVfd network).1 = .fault := by
  rcases SocketManager.belongsTo_eq_true.mp own with ⟨server, found, same⟩
  have member : (vfd, server) ∈ network.maps.peerVfd2ServerObj.entries :=
    OrderedMap.find_eq_some_iff.mp found
  have faulted : (delServerLoop serverVfd
      (network.maps.peerVfd2ServerObj.entries.length + 1)
      network.maps.peerVfd2ServerObj.first network).1 = .fault :=
    delServerLoop_of_own (List.nil_append _).symm ⟨_, member, same⟩
      (Nat.lt_succ_self _)
  rw [delServerVfd, Program.bind_of_ret (Program.get_apply _ _),
    Program.bind_of_ret (Program.get_apply _ _), Program.bind_of_fault (Prod.ext faulted rfl)]

/-- `DelServerVfd` does what it is for exactly if the server has no peer. -/
theorem deletesExactly_iff (network : MappedNetwork) (serverVfd : ℤ) :
    network.DeletesExactly serverVfd ↔
      ∀ vfd, network.maps.toManager.belongsTo serverVfd vfd = false := by
  constructor
  · rintro ⟨final, returned, -⟩ vfd
    apply Bool.eq_false_of_not_eq_true
    intro own
    have faulted := delServerVfd_of_peer own
    rw [returned] at faulted
    cases faulted
  · intro others
    rcases delServerVfd_of_others others with ⟨final, returned, left⟩
    exact ⟨final, returned, congrArg Network.manager left⟩

end Deletion

/-- The server on 3 is deleted, and the connection on 4 belongs to the one on 5. -/
example : (delServerVfd 3
    ⟨⟨⟨[(3, ⟨3, none⟩), (5, ⟨5, none⟩)], by simp⟩, ⟨[], by simp⟩,
      ⟨[(4, ⟨4, .server, true, 0⟩)], by simp⟩, ⟨[(4, ⟨5, none⟩)], by simp⟩, ⟨[], by simp⟩⟩,
      {3, 4, 5}, []⟩).1 = .ret true := by
  decide

/-- Every network with consistent registries has ordered maps, so the result applies to it. -/
theorem exists_of_consistent {network : Network} (consistent : network.Consistent) :
    ∃ mapped : MappedNetwork, mapped.toNetwork = network := by
  have absent := consistent.closed
  refine ⟨⟨⟨.ofFinset network.opened network.manager.serverObjList,
    .ofFinset network.opened network.manager.clientObjList,
    .ofFinset network.opened network.manager.peerObjList,
    .ofFinset network.opened network.manager.peerVfd2ServerObj,
    .ofFinset network.opened network.manager.peerVfd2ClientObj⟩,
    network.opened, network.calls⟩, ?_⟩
  simp only [toNetwork, SocketMaps.toManager]
  rw [OrderedMap.find_ofFinset fun vfd fresh => (absent vfd fresh).1,
    OrderedMap.find_ofFinset fun vfd fresh => (absent vfd fresh).2.1,
    OrderedMap.find_ofFinset fun vfd fresh => (absent vfd fresh).2.2.1,
    OrderedMap.find_ofFinset fun vfd fresh => (absent vfd fresh).2.2.2.1,
    OrderedMap.find_ofFinset fun vfd fresh => (absent vfd fresh).2.2.2.2.1]

/-- One accepted connection is enough: the loop goes on from its entry after it is erased. -/
theorem not_deletesExactly_accepted : ∃ network : MappedNetwork,
    network.toNetwork = Network.after [.createServer (some 0) ⟨3, 0, 0, 0, ⟨2, 0⟩⟩,
      .accept 3 ⟨4, ⟨2, 0⟩, 0⟩] ∧
      network.toNetwork.Consistent ∧ (delServerVfd 3 network).1 = .fault ∧
      ¬network.DeletesExactly 3 := by
  have fresh : Network.FreshHistory [.createServer (some 0) ⟨3, 0, 0, 0, ⟨2, 0⟩⟩,
      .accept 3 ⟨4, ⟨2, 0⟩, 0⟩] := by decide
  have consistent := fresh.intact.consistent
  rcases exists_of_consistent consistent with ⟨network, same⟩
  have own : network.maps.toManager.belongsTo 3 4 = true := by
    show network.toNetwork.manager.belongsTo 3 4 = true
    rw [same]
    decide
  have faulted := delServerVfd_of_peer own
  refine ⟨network, same, same ▸ consistent, faulted, ?_⟩
  rintro ⟨final, returned, -⟩
  rw [returned] at faulted
  cases faulted

/-! ## Descriptors -/

section Descriptors

variable {network : Network} {serverVfd : ℤ}

/-- The registries stay intact when a server without peers is deleted. -/
theorem intact_withoutServer (intact : network.Intact)
    (others : ∀ vfd, network.manager.belongsTo serverVfd vfd = false) :
    (⟨network.manager.withoutServer serverVfd, network.opened, network.calls⟩ :
      Network).Intact := by
  rw [SocketManager.withoutServer_of_others others]
  refine ⟨?_, ?_, intact.peer, intact.nonneg⟩
  · intro vfd
    cases intact.entry vfd with
    | absent noPeer noServer noOwner noClient => exact .absent noPeer noServer noOwner noClient
    | accepted server connection peer owner listens noOwner noClient =>
        have another : server.vfd ≠ serverVfd := by
          have foreign := others vfd
          simpa [SocketManager.belongsTo, owner] using foreign
        have stillListens : Function.update network.manager.serverObjList serverVfd none
            server.vfd = some server := by rw [Function.update_of_ne another, listens]
        exact .accepted server connection peer owner stillListens noOwner noClient
    | connected client connection unset peer noServer owner listed =>
        exact .connected client connection unset peer noServer owner listed
  · intro vfd server found
    by_cases deleted : vfd = serverVfd
    · simp [deleted] at found
    · simp only [Function.update_of_ne deleted] at found
      exact intact.listening vfd server found

/-- No registry knows the descriptor of the deleted server, which is still open. -/
theorem not_balanced_withoutServer (intact : network.Intact)
    (listed : (network.manager.serverObjList serverVfd).isSome)
    (others : ∀ vfd, network.manager.belongsTo serverVfd vfd = false) :
    ¬(⟨network.manager.withoutServer serverVfd, network.opened, network.calls⟩ :
      Network).Balanced := by
  rcases Option.isSome_iff_exists.mp listed with ⟨server, found⟩
  rcases intact.listening serverVfd server found with ⟨-, stillOpen, noPeer⟩
  intro balanced
  have known := (balanced serverVfd).mp stillOpen
  simp [SocketManager.withoutServer, others, noPeer] at known

end Descriptors

/-- Deleting a server without peers keeps the registries intact and leaks its descriptor. -/
theorem delServerVfd_leaks {network : MappedNetwork} {serverVfd : ℤ}
    (intact : network.toNetwork.Intact)
    (listed : (network.toNetwork.manager.serverObjList serverVfd).isSome)
    (others : ∀ vfd, network.toNetwork.manager.belongsTo serverVfd vfd = false) :
    ∃ final, delServerVfd serverVfd network = (.ret true, final) ∧ final.toNetwork.Intact ∧
      ¬final.toNetwork.Balanced := by
  rcases delServerVfd_of_others others with ⟨final, returned, left⟩
  refine ⟨final, returned, ?_, ?_⟩
  · rw [left]
    exact intact_withoutServer intact others
  · rw [left]
    exact not_balanced_withoutServer intact listed others

end MappedNetwork

end SimpleModule
