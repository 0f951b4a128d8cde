import SimpleModule.Socket.Host

/-!
# Two hosts and a connection between them

A client and a server each run a program with sockets.  One connection joins them: the bytes
that one side writes to it are, in order, the bytes that the other side can read, in pieces of
any size and at any time.  Both programs may have other connections, which the model leaves to
their environment.

A session works in both directions at once.  At every moment each side has handed over exactly
the packets whose last byte it has read.  The conditions are those of the interfaces and
ciphers: each side has an interface object for this connection alone and writes through it to
this connection only, the first read contains the seed, and the length of a packet is an `int`.

A run ends when a receiver writes behind the block of its buffer.  Until then the number of
bytes that pass is not bounded, and what is on the way can be read exactly if the buffer has
room for it.
-/

namespace SimpleModule

open Octets Runs

/-- The bytes read on a connection. -/
def Interfaces.readOn (interfaces : Interfaces) (connection : ℕ) : Bytes :=
  (interfaces.blocksOn connection).flatten

/-- The bytes written to a connection. -/
def Interfaces.writtenOn (interfaces : Interfaces) (connection : ℕ) : Bytes :=
  (interfaces.outputsOn connection).flatten

/-- The sides of a connection. -/
inductive Side
  | client
  | server
  deriving DecidableEq, Repr

def Side.other : Side → Side
  | .client => .server
  | .server => .client

@[simp]
theorem Side.other_other (side : Side) : side.other.other = side := by
  cases side with
  | client => rfl
  | server => rfl

theorem Side.other_ne (side : Side) : side.other ≠ side := by
  cases side with
  | client => exact Side.noConfusion
  | server => exact Side.noConfusion

theorem Side.other_eq_of_ne {side acting : Side} (apart : side ≠ acting) :
    side.other = acting := by
  cases side with
  | client =>
      cases acting with
      | client => exact absurd rfl apart
      | server => rfl
  | server =>
      cases acting with
      | client => rfl
      | server => exact absurd rfl apart

namespace Host

/-! ## How an endpoint moves on -/

/-- What interfaces that go on have added to an endpoint. -/
structure Moves (own : Endpoint) (interfaces next : Interfaces) (blocks : List Bytes) : Prop where
  outputs : interfaces.writtenOn own.connection <+: next.writtenOn own.connection
  packets : ∀ packet ∈ next.packetsOn own.connection,
    packet ∈ interfaces.packetsOn own.connection ∨ Sendable packet
  blocks : next.blocksOn own.connection = interfaces.blocksOn own.connection ++ blocks
  greetings : (next.funcs own.interface).greetings = (interfaces.funcs own.interface).greetings

section Moves

variable {randoms : ℕ → Int32} {own : Endpoint} {interfaces between last : Interfaces}

theorem moves_refl (own : Endpoint) (interfaces : Interfaces) :
    Moves own interfaces interfaces [] where
  outputs := List.prefix_rfl
  packets := fun _ member => .inl member
  blocks := (List.append_nil _).symm
  greetings := rfl

theorem Moves.trans {first second : List Bytes} (moves : Moves own interfaces between first)
    (later : Moves own between last second) : Moves own interfaces last (first ++ second) where
  outputs := moves.outputs.trans later.outputs
  packets := by
    intro packet member
    rcases later.packets packet member with earlier | sendable
    · exact moves.packets packet earlier
    · exact .inr sendable
  blocks := by rw [later.blocks, moves.blocks, List.append_assoc]
  greetings := later.greetings.trans moves.greetings

theorem moves_wrote {interface : ℕ} {connection : Option ℕ} {buf : Bytes}
    (sendable : connection = some own.connection → Sendable buf) :
    Moves own interfaces (interfaces.wrote randoms interface connection buf) [] where
  outputs := by
    rw [Interfaces.writtenOn, Interfaces.writtenOn, Interfaces.outputsOn_wrote,
      List.flatten_append]
    exact List.prefix_append _ _
  packets := by
    intro packet member
    rw [Interfaces.packetsOn_wrote, List.mem_append] at member
    rcases member with earlier | new
    · exact .inl earlier
    · split_ifs at new with same
      · rw [List.mem_singleton.mp new]
        exact .inr (sendable same)
      · cases new
  blocks := (List.append_nil _).symm
  greetings := (Interfaces.funcs_wrote randoms interface connection interfaces buf _).2

/-- The block that a call adds to a connection. -/
def blockOf (manager : SocketManager) (connection : ℕ) (call : InterfaceCall) : List Bytes :=
  match call.notice with
  | .onConnect _ => []
  | .onRead vfd buf => if manager.connectionOf vfd = some connection then [buf] else []
  | .onError _ => []

theorem moves_answer {network : Network} (apart : Apart own network) {call : InterfaceCall}
    (sendable : ∀ buf ∈ (interfaces.funcs own.interface).greetings, Sendable buf)
    (routed : Routed network.manager call)
    (answered : interfaces.answer randoms network.manager call = some between) :
    Moves own interfaces between (blockOf network.manager own.connection call) := by
  rcases call with ⟨interface, vfd | ⟨vfd, buf⟩ | vfd⟩
  · cases answered
    rw [Interfaces.packetOnConnect_eq, peerVfdOnWrite_eq apart.intact]
    apply Interfaces.foldl_wrote (motive := fun between => Moves own interfaces between [])
    · exact moves_refl own interfaces
    · intro between moves buf member
      refine moves.trans (moves_wrote fun connection => ?_)
      have same : interface = own.interface := (apart.concerns routed).mp connection
      exact sendable buf (same ▸ member)
  · simp only [Interfaces.answer, Interfaces.packetOnRead_eq] at answered
    rcases Option.map_eq_some_iff.mp answered with ⟨decrypted, -, rfl⟩
    exact ⟨List.prefix_rfl, fun _ member => .inl member,
      Interfaces.blocksOn_took interface _ interfaces buf decrypted own.connection,
      (Interfaces.funcs_took interface _ interfaces buf decrypted own.interface).2⟩
  · cases answered
    exact moves_refl own _

theorem moves_answers {network : Network} (apart : Apart own network)
    {calls : List InterfaceCall}
    (sendable : ∀ buf ∈ (interfaces.funcs own.interface).greetings, Sendable buf)
    (routed : ∀ call ∈ calls, Routed network.manager call)
    (answered : run (Interfaces.answer randoms network.manager) interfaces calls = some last) :
    Moves own interfaces last (calls.flatMap (blockOf network.manager own.connection)) := by
  induction calls generalizing interfaces with
  | nil =>
      cases answered
      exact moves_refl own _
  | cons call rest ih =>
      rw [run_cons, Option.bind_eq_some_iff] at answered
      rcases answered with ⟨between, first, later⟩
      have moved := moves_answer apart sendable (routed call List.mem_cons_self) first
      have remaining := ih (by rwa [moved.greetings])
        (fun other member => routed other (List.mem_cons_of_mem _ member)) later
      exact moved.trans remaining

end Moves

/-- The blocks that an event brings to a connection. -/
def brought (host : Host) (connection : ℕ) : Event → List Bytes
  | .network (.read vfd data) =>
      if host.network.manager.connectionOf vfd = some connection then Network.readBlocks data
      else []
  | _ => []

/-- The endpoint's interface writes to its connection only, and no other one does. -/
def WritesOwn (own : Endpoint) (host : Host) : Event → Prop
  | .network _ => True
  | .write interface vfd _ =>
      interface = own.interface ↔
        host.network.manager.peerVfdOnWrite vfd = some own.connection

instance (own : Endpoint) (host : Host) : (event : Event) → Decidable (host.WritesOwn own event)
  | .network _ => isTrue trivial
  | .write _ _ _ => inferInstanceAs (Decidable (_ ↔ _))

section Step

variable {randoms : ℕ → Int32} {own : Endpoint} {host next : Host}

theorem callsOf_read_own (apart : Apart own host.network) {vfd : ℤ} (data : Bytes)
    (joined : host.network.manager.connectionOf vfd = some own.connection) :
    callsOf host.network (.read vfd data) =
      (Network.readBlocks data).map fun block => ⟨own.interface, .onRead vfd block⟩ := by
  rcases Option.map_eq_some_iff.mp joined with ⟨peer, found, -⟩
  rw [callsOf_read apart.intact found, (apart.served vfd).mp joined, List.map_eq_flatMap]
  rfl

/-- The calls of an event bring its blocks. -/
theorem flatMap_blockOf (apart : Apart own host.network) {event : Network.Event}
    (unopened : host.network.Unopened event) :
    (callsOf host.network event).flatMap
        (blockOf (host.network.step event).manager own.connection) =
      host.brought own.connection (.network event) := by
  by_cases joined : ∃ vfd data, event = .read vfd data ∧
      host.network.manager.connectionOf vfd = some own.connection
  · rcases joined with ⟨vfd, data, rfl, connection⟩
    have same : (host.network.step (.read vfd data)).manager = host.network.manager :=
      (host.network.onRead_same vfd data).1
    have each : ∀ block, blockOf host.network.manager own.connection
        ⟨own.interface, .onRead vfd block⟩ = [block] := fun block => if_pos connection
    rw [callsOf_read_own apart data connection, same, List.flatMap_map, brought,
      if_pos connection]
    simp only [each, List.flatMap_singleton']
  · have nothing : host.brought own.connection (.network event) = [] := by
      cases event with
      | read vfd data => exact if_neg fun connection => joined ⟨vfd, data, rfl, connection⟩
      | createServer packetClass results => rfl
      | createClient ip packetClass address results => rfl
      | accept listenfd results => rfl
      | error vfd stale => rfl
    rw [nothing, List.flatMap_eq_nil_iff]
    intro call called
    cases made_of_mem_callsOf apart.intact unopened called with
    | connect vfd interface routed => rfl
    | read vfd data block interface source routed =>
        subst source
        apply if_neg
        rw [Network.step, (host.network.onRead_same vfd data).1]
        exact fun connection => joined ⟨vfd, data, rfl, connection⟩
    | error vfd interface => rfl

/-- One event adds to the endpoint what it brings, and packets that can be sent. -/
theorem moves_step (isolated : host.Isolated randoms own) {event : Event}
    (greetings : ∀ buf ∈ (host.interfaces.funcs own.interface).greetings, Sendable buf)
    (written : ∀ vfd buf, event = .write own.interface vfd buf → Sendable buf)
    (respects : host.Respects own event) (writes : host.WritesOwn own event)
    (stepped : host.step randoms event = some next) :
    Moves own host.interfaces next.interfaces (host.brought own.connection event) := by
  have apart := isolated.apart
  cases event with
  | write interface vfd buf =>
      cases stepped
      rw [Interfaces.writeData_eq]
      apply moves_wrote
      intro connection
      exact written vfd buf (by rw [writes.mpr connection])
  | network event =>
      rcases step_network_eq_some stepped with ⟨-, answered⟩
      rw [← flatMap_blockOf apart respects.1.1]
      apply moves_answers (apart.step respects.1 respects.2) greetings _ answered
      intro call called
      exact (made_of_mem_callsOf apart.intact respects.1.1 called).routed

theorem dedicated_step (isolated : host.Isolated randoms own)
    (dedicated : host.interfaces.Dedicated own) {event : Event}
    (respects : host.Respects own event) (writes : host.WritesOwn own event)
    (stepped : host.step randoms event = some next) : next.interfaces.Dedicated own := by
  have apart := isolated.apart
  cases event with
  | write interface vfd buf =>
      cases stepped
      rw [Interfaces.writeData_eq]
      exact dedicated.wrote writes buf
  | network event =>
      rcases step_network_eq_some stepped with ⟨-, answered⟩
      refine run_invariant (fun call called _ _ => ?_) dedicated answered
      have made := made_of_mem_callsOf apart.intact respects.1.1 called
      exact answer_dedicated (apart.step respects.1 respects.2) made.routed

end Step

end Host

namespace Duplex

/-- Something happens at one side. -/
structure Event where
  side : Side
  event : Host.Event
  deriving DecidableEq, Repr

def step (randoms : Side → ℕ → Int32) (hosts : Side → Host) (event : Event) :
    Option (Side → Host) :=
  ((hosts event.side).step (randoms event.side) event.event).map
    (Function.update hosts event.side)

/-- Two programs that have created their interfaces. -/
def create (greetings : Side → ℕ → List Bytes) (side : Side) : Host := Host.create (greetings side)

/--
A read on the joined connection brings the next bytes that the other side has written, and the
first one brings the seed.  The lengths of packets written to it are `int`s.
-/
def Carries (link : Side → Host.Endpoint) (hosts : Side → Host) (side : Side) :
    Host.Event → Prop
  | .network (.read vfd data) =>
      (hosts side).network.manager.connectionOf vfd = some (link side).connection →
        (hosts side).interfaces.readOn (link side).connection ++ data <+:
            (hosts side.other).interfaces.writtenOn (link side.other).connection ∧
          ((hosts side).interfaces.readOn (link side).connection = [] → 4 ≤ data.length)
  | .write interface _ buf => interface = (link side).interface → Sendable buf
  | _ => True

instance (link : Side → Host.Endpoint) (hosts : Side → Host) (side : Side) :
    (event : Host.Event) → Decidable (Carries link hosts side event)
  | .network (.read _ _) => inferInstanceAs (Decidable (_ → _))
  | .network (.createServer _ _) => isTrue trivial
  | .network (.createClient _ _ _ _) => isTrue trivial
  | .network (.accept _ _) => isTrue trivial
  | .network (.error _ _) => isTrue trivial
  | .write interface _ buf =>
      inferInstanceAs (Decidable (interface = _ → buf.length + 8 < 2 ^ 31))

/-- What is asked of an event at either side. -/
def Allowed (link : Side → Host.Endpoint) (hosts : Side → Host) (event : Event) : Prop :=
  (hosts event.side).Respects (link event.side) event.event ∧
    (hosts event.side).WritesOwn (link event.side) event.event ∧
    Carries link hosts event.side event.event

instance (link : Side → Host.Endpoint) (hosts : Side → Host) (event : Event) :
    Decidable (Allowed link hosts event) :=
  inferInstanceAs (Decidable (_ ∧ _ ∧ _))

/-! ## The invariant -/

/-- What holds of each side at every moment. -/
structure Sound (randoms : ℕ → Int32) (own : Host.Endpoint) (host : Host) : Prop where
  isolated : host.Isolated randoms own
  dedicated : host.interfaces.Dedicated own
  greetings : ∀ buf ∈ (host.interfaces.funcs own.interface).greetings, Sendable buf
  packets : ∀ packet ∈ host.interfaces.packetsOn own.connection, Sendable packet
  seeded : host.interfaces.blocksOn own.connection ≠ [] →
    PacketDecrypt.SeedArrivesWhole (host.interfaces.blocksOn own.connection)

/-- Both sides are sound, and what one has read is the beginning of what the other has written. -/
structure Joined (randoms : Side → ℕ → Int32) (link : Side → Host.Endpoint)
    (hosts : Side → Host) : Prop where
  sound : ∀ side, Sound (randoms side) (link side) (hosts side)
  wire : ∀ side, (hosts side).interfaces.readOn (link side).connection <+:
    (hosts side.other).interfaces.writtenOn (link side.other).connection

section Invariant

variable {randoms : Side → ℕ → Int32} {link : Side → Host.Endpoint} {hosts next : Side → Host}

theorem create_joined {greetings : Side → ℕ → List Bytes}
    (sendable : ∀ side, ∀ buf ∈ greetings side (link side).interface, Sendable buf) :
    Joined randoms link (create greetings) where
  sound := fun side =>
    { isolated := Host.create_isolated (greetings side) (link side)
      dedicated := fun _ member => nomatch member
      greetings := sendable side
      packets := fun _ member => nomatch member
      seeded := fun some_block => absurd rfl some_block }
  wire := fun _ => List.nil_prefix

/-- What the side of an event has added, while the other side waits. -/
structure Advances (link : Side → Host.Endpoint) (hosts next : Side → Host) (event : Event) :
    Prop where
  others : ∀ side, side ≠ event.side → next side = hosts side
  moves : Host.Moves (link event.side) (hosts event.side).interfaces (next event.side).interfaces
    ((hosts event.side).brought (link event.side).connection event.event)

theorem Joined.advances (joined : Joined randoms link hosts) {event : Event}
    (allowed : Allowed link hosts event) (stepped : step randoms hosts event = some next) :
    (next event.side).Isolated (randoms event.side) (link event.side) ∧
      (next event.side).interfaces.Dedicated (link event.side) ∧
      Advances link hosts next event := by
  rcases event with ⟨side, event⟩
  rcases allowed with ⟨respects, writes, carries⟩
  rcases Option.map_eq_some_iff.mp stepped with ⟨host, moved, rfl⟩
  have sound := joined.sound side
  have written : ∀ vfd buf, event = .write (link side).interface vfd buf → Sendable buf := by
    rintro vfd buf rfl
    exact carries rfl
  refine ⟨?_, ?_, ?_, ?_⟩
  · rw [Function.update_self]
    exact sound.isolated.step respects moved
  · rw [Function.update_self]
    exact Host.dedicated_step sound.isolated sound.dedicated respects writes moved
  · intro other apart
    exact Function.update_of_ne apart _ _
  · rw [Function.update_self]
    exact Host.moves_step sound.isolated sound.greetings written respects writes moved

/-- The first block of a connection comes from its first read. -/
theorem seedArrivesWhole_append {before : List Bytes} {data : Bytes}
    (seeded : before ≠ [] → PacketDecrypt.SeedArrivesWhole before)
    (first : before.flatten = [] → 4 ≤ data.length) :
    PacketDecrypt.SeedArrivesWhole (before ++ Network.readBlocks data) := by
  rcases before with _ | ⟨block, rest⟩
  · have enough := first rfl
    have some_data : ¬(data.take Network.recvBlockSize).length = 0 := by
      rw [List.length_take, Network.recvBlockSize]
      omega
    rw [List.nil_append, PacketDecrypt.SeedArrivesWhole, Network.readBlocks,
      Network.blocksWithin, if_neg some_data, List.headD_cons, List.length_take,
      Network.recvBlockSize]
    omega
  · exact seeded (List.cons_ne_nil _ _)

/-- The bytes that a read on the connection brings are those that it carries. -/
theorem flatten_brought (hosts : Side → Host) {side : Side} {vfd : ℤ} {connection : ℕ}
    (joined : (hosts side).network.manager.connectionOf vfd = some connection) (data : Bytes) :
    ((hosts side).brought connection (.network (.read vfd data))).flatten = data := by
  rw [Host.brought, if_pos joined, (Network.readsBlocks_readBlocks data).whole]

/-- An event brings nothing, or it is a read on the connection. -/
theorem brought_cases (hosts : Side → Host) (side : Side) (connection : ℕ) (event : Host.Event) :
    (hosts side).brought connection event = [] ∨
      ∃ vfd data, event = .network (.read vfd data) ∧
        (hosts side).network.manager.connectionOf vfd = some connection := by
  cases event with
  | write interface vfd buf => exact .inl rfl
  | network event =>
      cases event with
      | read vfd data =>
          by_cases joined : (hosts side).network.manager.connectionOf vfd = some connection
          · exact .inr ⟨vfd, data, rfl, joined⟩
          · exact .inl (if_neg joined)
      | createServer packetClass results => exact .inl rfl
      | createClient ip packetClass address results => exact .inl rfl
      | accept listenfd results => exact .inl rfl
      | error vfd stale => exact .inl rfl

namespace Advances

variable {event : Event}

theorem readOn (advances : Advances link hosts next event) :
    (next event.side).interfaces.readOn (link event.side).connection =
      (hosts event.side).interfaces.readOn (link event.side).connection ++
        ((hosts event.side).brought (link event.side).connection event.event).flatten := by
  rw [Interfaces.readOn, advances.moves.blocks, List.flatten_append]
  rfl

theorem wire (advances : Advances link hosts next event) (joined : Joined randoms link hosts)
    (allowed : Allowed link hosts event) (side : Side) :
    (next side).interfaces.readOn (link side).connection <+:
      (next side.other).interfaces.writtenOn (link side.other).connection := by
  by_cases same : side = event.side
  · subst same
    rw [advances.others _ event.side.other_ne, advances.readOn]
    rcases brought_cases hosts event.side (link event.side).connection event.event with
      nothing | ⟨vfd, data, source, connection⟩
    · rw [nothing, List.flatten_nil, List.append_nil]
      exact joined.wire event.side
    · have carries := allowed.2.2
      rw [source] at carries ⊢
      rw [flatten_brought hosts connection]
      exact (carries connection).1
  · rw [advances.others side same, Side.other_eq_of_ne same]
    apply List.IsPrefix.trans _ advances.moves.outputs
    rw [← Side.other_eq_of_ne same]
    exact joined.wire side

theorem seeded (advances : Advances link hosts next event) (joined : Joined randoms link hosts)
    (allowed : Allowed link hosts event)
    (some_block : (next event.side).interfaces.blocksOn (link event.side).connection ≠ []) :
    PacketDecrypt.SeedArrivesWhole
      ((next event.side).interfaces.blocksOn (link event.side).connection) := by
  rw [advances.moves.blocks] at some_block ⊢
  have before := (joined.sound event.side).seeded
  rcases brought_cases hosts event.side (link event.side).connection event.event with
    nothing | ⟨vfd, data, source, connection⟩
  · rw [nothing, List.append_nil] at some_block ⊢
    exact before some_block
  · have carries := allowed.2.2
    rw [source] at carries ⊢
    rw [Host.brought, if_pos connection]
    exact seedArrivesWhole_append before (carries connection).2

end Advances

/-- The step lemma of the system. -/
theorem Joined.step (joined : Joined randoms link hosts) {event : Event}
    (allowed : Allowed link hosts event) (stepped : Duplex.step randoms hosts event = some next) :
    Joined randoms link next := by
  rcases joined.advances allowed stepped with ⟨isolated, dedicated, advances⟩
  refine ⟨?_, advances.wire joined allowed⟩
  intro side
  by_cases same : side = event.side
  · subst same
    have before := joined.sound event.side
    refine ⟨isolated, dedicated, ?_, ?_, advances.seeded joined allowed⟩
    · rw [advances.moves.greetings]
      exact before.greetings
    · intro packet member
      rcases advances.moves.packets packet member with earlier | sendable
      · exact before.packets packet earlier
      · exact sendable
  · rw [advances.others side same]
    exact joined.sound side

end Invariant

/-! ## What is handed over -/

section Delivery

variable {randoms : ℕ → Int32} {own : Host.Endpoint} {writer : Host}

theorem Sound.writtenOn_eq (sound : Sound randoms own writer) :
    writer.interfaces.writtenOn own.connection =
      (PacketEncrypt.encryptPackets (randoms own.interface) ⟨some SimpleXOR.create⟩
        (writer.interfaces.packetsOn own.connection)).2.flatten := by
  rw [Interfaces.writtenOn, sound.isolated.encoded.outputsOn_eq sound.dedicated]

/-- A sound side has written the frames of its packets behind a seed. -/
theorem Sound.length_writtenOn (sound : Sound randoms own writer) :
    (writer.interfaces.writtenOn own.connection).length - 4 =
      Frames.weight (writer.interfaces.packetsOn own.connection) := by
  rw [sound.writtenOn_eq]
  by_cases silent : writer.interfaces.packetsOn own.connection = []
  · rw [silent]
    rfl
  · rw [PacketEncrypt.encryptPackets_fresh _ silent, List.length_append,
      SimpleXOR.length_seedBytes, SimpleXOR.length_xmakes, Frames.length_stream]
    omega

/-- A side that has written anything has written more than the seed. -/
theorem Sound.four_le_writtenOn (sound : Sound randoms own writer)
    (written : writer.interfaces.writtenOn own.connection ≠ []) :
    4 ≤ (writer.interfaces.writtenOn own.connection).length := by
  have length := sound.length_writtenOn
  have some_packet : writer.interfaces.packetsOn own.connection ≠ [] := by
    intro silent
    apply written
    rw [sound.writtenOn_eq, silent]
    rfl
  have weight := Frames.four_le_weight some_packet
  omega

/-- The receiver's buffer has room for the blocks that are read of the writer's stream. -/
def RoomForBlocks (packets blocks : List Bytes) : Prop :=
  PacketDecrypt.HasRoom .requested packets PacketDecrypt.newRoom 0
    (PacketDecrypt.sizesAfterSeed blocks)

instance (packets blocks : List Bytes) : Decidable (RoomForBlocks packets blocks) :=
  inferInstanceAs (Decidable (PacketDecrypt.HasRoom _ _ _ _ _))

/-- What a fresh receiver does with blocks from a sound side's stream. -/
theorem Sound.decryptPackets_cases (sound : Sound randoms own writer) (vfd : ℤ)
    {blocks : List Bytes} (sent : blocks.flatten <+: writer.interfaces.writtenOn own.connection)
    (whole : PacketDecrypt.SeedArrivesWhole blocks) :
    (RoomForBlocks (writer.interfaces.packetsOn own.connection) blocks ∧
      ∃ decoder, PacketDecrypt.decryptPackets .requested vfd
        (PacketDecrypt.create (some SimpleXOR.create)) blocks =
          some (decoder, (Frames.complete (writer.interfaces.packetsOn own.connection)
            (blocks.flatten.length - 4)).map (Bag.mk vfd))) ∨
      ¬RoomForBlocks (writer.interfaces.packetsOn own.connection) blocks ∧
        PacketDecrypt.decryptPackets .requested vfd
          (PacketDecrypt.create (some SimpleXOR.create)) blocks = none := by
  rw [sound.writtenOn_eq] at sent
  by_cases room : RoomForBlocks (writer.interfaces.packetsOn own.connection) blocks
  · exact .inl ⟨room,
      PacketDecrypt.decryptPackets_session_prefix vfd sound.packets sent whole room⟩
  · exact .inr ⟨room, PacketDecrypt.decryptPackets_session_none vfd sound.packets sent whole room⟩

end Delivery

section Delivery

variable {randoms : Side → ℕ → Int32} {link : Side → Host.Endpoint} {hosts : Side → Host}

/--
Each side has handed over exactly the packets that are complete in what it has read, for which
its buffer had room.
-/
theorem Joined.delivered (joined : Joined randoms link hosts) (side : Side) :
    (hosts side).interfaces.bagsOf (link side).interface =
        (Frames.complete ((hosts side.other).interfaces.packetsOn (link side.other).connection)
          (((hosts side).interfaces.readOn (link side).connection).length - 4)).map
          (Bag.mk (link side).vfd) ∧
      ((hosts side).interfaces.blocksOn (link side).connection ≠ [] →
        RoomForBlocks ((hosts side.other).interfaces.packetsOn (link side.other).connection)
          ((hosts side).interfaces.blocksOn (link side).connection)) := by
  have sound := joined.sound side
  have decoded := sound.isolated.decoded
  rw [Interfaces.Decoded] at decoded
  by_cases nothing : (hosts side).interfaces.blocksOn (link side).connection = []
  · rw [nothing, PacketDecrypt.decryptPackets, Option.some.injEq, Prod.mk.injEq] at decoded
    refine ⟨?_, absurd nothing⟩
    rw [← decoded.2, Interfaces.readOn, nothing, List.flatten_nil, List.length_nil,
      Nat.zero_sub, Frames.complete_zero]
    rfl
  · rcases (joined.sound side.other).decryptPackets_cases (link side).vfd (joined.wire side)
      (sound.seeded nothing) with ⟨room, decoder, decrypted⟩ | ⟨-, overrun⟩
    · rw [decrypted, Option.some.injEq, Prod.mk.injEq] at decoded
      exact ⟨decoded.2.symm, fun _ => room⟩
    · rw [overrun] at decoded
      cases decoded

/-- Once everything has been read, all packets have been handed over. -/
theorem Joined.bagsOf_of_read_all (joined : Joined randoms link hosts) {side : Side}
    (all : (hosts side).interfaces.readOn (link side).connection =
      (hosts side.other).interfaces.writtenOn (link side.other).connection) :
    (hosts side).interfaces.bagsOf (link side).interface =
      ((hosts side.other).interfaces.packetsOn (link side.other).connection).map
        (Bag.mk (link side).vfd) := by
  rw [(joined.delivered side).1, all, (joined.sound side.other).length_writtenOn,
    Frames.complete_weight]

/-- An interface that can decrypt all blocks of a read answers all its calls. -/
theorem answers_reads (randoms : ℕ → Int32) (manager : SocketManager) {interfaces : Interfaces}
    {interface : ℕ} {vfd : ℤ} {blocks : List Bytes} {last : PacketDecrypt × List Bag}
    (decrypted : PacketDecrypt.decryptPackets .requested vfd
      (interfaces.funcs interface).decryptObj blocks = some last) :
    ∃ next, run (Interfaces.answer randoms manager) interfaces
      (blocks.map fun block => ⟨interface, .onRead vfd block⟩) = some next := by
  induction blocks generalizing interfaces last with
  | nil => exact ⟨interfaces, rfl⟩
  | cons block rest ih =>
      simp only [PacketDecrypt.decryptPackets, bind, Option.bind_eq_some_iff] at decrypted
      rcases decrypted with ⟨first, head, later, tail, -⟩
      have answered : interfaces.answer randoms manager ⟨interface, .onRead vfd block⟩ =
          some (interfaces.took interface (manager.connectionOf vfd) block first) := by
        simp only [Interfaces.answer, Interfaces.packetOnRead_eq, head, Option.map_some]
      have decoder : ((interfaces.took interface (manager.connectionOf vfd) block first).funcs
          interface).decryptObj = first.1 := by
        simp [Interfaces.took]
      rw [← decoder] at tail
      rcases ih tail with ⟨next, answers⟩
      refine ⟨next, ?_⟩
      rw [List.map_cons, run_cons, answered]
      exact answers

/-- What a read on the connection leaves: the bytes are read, and the other side has waited. -/
theorem Joined.after_read (joined : Joined randoms link hosts) {next : Side → Host} {side : Side}
    {vfd : ℤ} {data : Bytes}
    (connection :
      (hosts side).network.manager.connectionOf vfd = some (link side).connection)
    (allowed : Allowed link hosts ⟨side, .network (.read vfd data)⟩)
    (stepped : Duplex.step randoms hosts ⟨side, .network (.read vfd data)⟩ = some next) :
    (next side).interfaces.blocksOn (link side).connection =
        (hosts side).interfaces.blocksOn (link side).connection ++ Network.readBlocks data ∧
      (next side).interfaces.readOn (link side).connection =
        (hosts side).interfaces.readOn (link side).connection ++ data ∧
      next side.other = hosts side.other := by
  rcases joined.advances allowed stepped with ⟨-, -, advances⟩
  refine ⟨?_, ?_, advances.others _ side.other_ne⟩
  · rw [advances.moves.blocks, Host.brought, if_pos connection]
  · rw [advances.readOn, flatten_brought hosts connection]

/-- The read of what the connection brings next returns if the buffer has room for it. -/
theorem Joined.read_returns (joined : Joined randoms link hosts) {side : Side} {vfd : ℤ}
    {data : Bytes}
    (connection :
      (hosts side).network.manager.connectionOf vfd = some (link side).connection)
    (carries : Carries link hosts side (.network (.read vfd data)))
    (room : RoomForBlocks ((hosts side.other).interfaces.packetsOn (link side.other).connection)
      ((hosts side).interfaces.blocksOn (link side).connection ++ Network.readBlocks data)) :
    ∃ next, Duplex.step randoms hosts ⟨side, .network (.read vfd data)⟩ = some next := by
  have sound := joined.sound side
  have apart := sound.isolated.apart
  rcases carries connection with ⟨sent, first⟩
  have whole := seedArrivesWhole_append sound.seeded first
  have flat : ((hosts side).interfaces.blocksOn (link side).connection ++
      Network.readBlocks data).flatten =
        (hosts side).interfaces.readOn (link side).connection ++ data := by
    rw [List.flatten_append, (Network.readsBlocks_readBlocks data).whole]
    rfl
  rcases (joined.sound side.other).decryptPackets_cases (link side).vfd (flat ▸ sent) whole with
    ⟨-, decoder, decrypted⟩ | ⟨overrun, -⟩
  · rw [PacketDecrypt.decryptPackets_append sound.isolated.decoded,
      Option.map_eq_some_iff] at decrypted
    rcases decrypted with ⟨last, decrypted, -⟩
    rw [← apart.placed vfd connection] at decrypted
    have survives : ¬(hosts side).Throws (.read vfd data) := by
      rcases Option.map_eq_some_iff.mp connection with ⟨peer, found, -⟩
      simp [Host.Throws, found, (apart.intact.live found).2]
    rcases answers_reads (randoms side) ((hosts side).network.step (.read vfd data)).manager
      decrypted with ⟨interfaces, answered⟩
    refine ⟨Function.update hosts side ⟨(hosts side).network.step (.read vfd data), interfaces⟩, ?_⟩
    rw [Duplex.step, Host.step, if_neg survives, Host.callsOf_read_own apart data connection,
      answered]
    rfl
  · exact absurd room overrun

end Delivery

/-! ## Sessions -/

section Session

variable {randoms : Side → ℕ → Int32} {link : Side → Host.Endpoint}
  {greetings : Side → ℕ → List Bytes} {events : List Event} {final : Side → Host}

/-- The run lemma of the system. -/
theorem joined_of_run
    (sendable : ∀ side, ∀ buf ∈ greetings side (link side).interface, Sendable buf)
    (allowed : StepsMeet (step randoms) (Allowed link) (create greetings) events)
    (reached : run (step randoms) (create greetings) events = some final) :
    Joined randoms link final := by
  have states : StatesMeet (step randoms) (Joined randoms link) (create greetings) events :=
    statesMeet_of_stepsMeet (fun joined allowed stepped => joined.step allowed stepped)
      (create_joined sendable) allowed
  exact states.last reached

end Session

/-- The interfaces of the client program and of the server program. -/
def programs : Side → ℕ → List Bytes
  | .client, _ => PacketFunc.simplePacketFunc.greetings
  | .server, _ => PacketFunc.simpleServerFunc.greetings

/-- The connection of the client program on descriptor 5 and of the server program on 4. -/
def oneLink : Side → Host.Endpoint
  | .client => ⟨0, 0, 5⟩
  | .server => ⟨0, 0, 4⟩

/-- The server starts, the client connects, and the server reads the first of its messages. -/
def firstMessage : List Event :=
  [⟨.server, .network (.createServer (some 0) ⟨3, 0, 0, 0, ⟨2, 0⟩⟩)⟩,
    ⟨.client, .network (.createClient "192.168.10.48" (some 0) 0 ⟨5, 0, ⟨2, 0⟩, 0⟩)⟩,
    ⟨.server, .network (.accept 3 ⟨4, ⟨2, 0⟩, 0⟩)⟩,
    ⟨.server, .network (.read 4
      [7, 0, 0, 0, 55, 62, 117, 171, 59, 108, 149, 252, 212, 189, 151, 90, 246, 14])⟩]

theorem programs_sendable :
    ∀ side, ∀ buf ∈ programs side (oneLink side).interface, Sendable buf := by
  intro side
  cases side with
  | client =>
      simp only [Sendable]
      decide +kernel
  | server =>
      simp only [Sendable]
      decide +kernel

theorem firstMessage_allowed :
    StepsMeet (step fun _ _ => 7) (Allowed oneLink) (create programs) firstMessage := by
  decide +kernel

section Session

variable {randoms : Side → ℕ → Int32} {link : Side → Host.Endpoint}
  {greetings : Side → ℕ → List Bytes} {events : List Event} {final : Side → Host}

end Session

/-- The second message of the client program. -/
def secondMessage : Bytes :=
  ((PacketEncrypt.encryptPackets 7 ⟨some SimpleXOR.create⟩
    PacketFunc.simplePacketFunc.greetings).2.flatten).drop 18

end Duplex

end SimpleModule
