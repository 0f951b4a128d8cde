import SimpleModule.Socket.Server

/-!
# Outbound isolation of connections

All packets the server writes pass through the one sender of its interface object.
Its cipher puts the seed in front of the first packet it ever encrypts, which is the
greeting of the first connection.  A client on any later connection takes the first
four bytes it receives for a seed and is left with fewer bytes than the packets
written to it need.
-/

namespace SimpleModule

open Octets Runs

namespace Process

/-- The packets written to a connection. -/
def packetsTo (process : Process) (connection : ℕ) : List Bytes :=
  process.interfaces.packetsOn connection

/-- The bytes sent on a connection. -/
def outputTo (process : Process) (connection : ℕ) : Bytes :=
  (process.interfaces.outputsOn connection).flatten

/--
A client that feeds the bytes of its connection to a fresh receiver obtains the
packets written to it, whatever the cutting after a first chunk of four bytes.
-/
def OutboundIsolated (process : Process) : Prop :=
  ∀ connection < process.connections, ∀ (vfd : ℤ) (chunks : List Bytes),
    chunks.flatten = process.outputTo connection → PacketDecrypt.SeedArrivesWhole chunks →
      PacketDecrypt.Delivers vfd (PacketDecrypt.create (some SimpleXOR.create)) chunks
        (process.packetsTo connection)

/-- The packets that an event makes the server write. -/
def Event.requested : Event → List Bytes
  | .accept _ _ => PacketFunc.simpleServerFunc.greetings
  | .write _ buf => [buf]
  | .read _ _ => []
  | .error _ => []

/-- The packets that a run makes the server write. -/
def requested (events : List Event) : List Bytes := events.flatMap Event.requested

/-- The number of connections accepted in a run. -/
def accepts (events : List Event) : ℕ :=
  events.countP fun event => match event with
    | .accept _ _ => true
    | _ => false

/-- All packets that the server has written. -/
def written (process : Process) : List Bytes := process.interfaces.writes.map Write.packet

/-- What the writes of a server with the given number of connections have in common. -/
structure Outbound (random : Int32) (interface connections : ℕ) (interfaces : Interfaces) :
    Prop where
  encoded : interfaces.Encoded fun _ => random
  own : ∀ write ∈ interfaces.writes, write.interface = interface
  sized : ∀ write ∈ interfaces.writes.tail, write.output.length = 4 + write.packet.length
  first : ∀ write ∈ interfaces.writes.head?, write.connection = some 0
  numbered : ∀ write ∈ interfaces.writes,
    ∃ connection < connections, write.connection = some connection

/-- Every connection was written to. -/
def Greeted (connections : ℕ) (interfaces : Interfaces) : Prop :=
  ∀ connection < connections, interfaces.packetsOn connection ≠ []

namespace Outbound

variable {random : Int32} {interface connections : ℕ} {interfaces : Interfaces}

theorem create_outbound (greetings : ℕ → List Bytes) :
    Outbound random interface 0 (Interfaces.create greetings) where
  encoded := Interfaces.create_encoded _ greetings
  own := by simp [Interfaces.create]
  sized := by simp [Interfaces.create]
  first := by simp [Interfaces.create]
  numbered := by simp [Interfaces.create]

/-- All packets have passed through the one sender. -/
theorem encryptPackets_eq (outbound : Outbound random interface connections interfaces) :
    PacketEncrypt.encryptPackets random ⟨some SimpleXOR.create⟩
        (interfaces.writes.map Write.packet) =
      ((interfaces.funcs interface).encryptObj, interfaces.writes.map Write.output) := by
  have all : (interfaces.writes.filter fun write => write.interface = interface) =
      interfaces.writes := by
    rw [List.filter_eq_self]
    intro write member
    exact decide_eq_true (outbound.own write member)
  have encoded := outbound.encoded interface
  rwa [Interfaces.packetsOf, Interfaces.outputsOf, all] at encoded

theorem length_output (outbound : Outbound random interface connections interfaces)
    (later : interfaces.writes ≠ []) (buf : Bytes) :
    ((interfaces.funcs interface).encryptObj.encryptPacket random buf).2.length =
      4 + buf.length := by
  have some_packets : interfaces.writes.map Write.packet ≠ [] := by simpa using later
  rcases PacketEncrypt.encryptPackets_seedFlag random SimpleXOR.create some_packets with
    ⟨cipher, state, seeded⟩
  simp only [outbound.encryptPackets_eq] at state
  rw [state, PacketEncrypt.length_encryptPacket_seeded random seeded]

theorem wrote (outbound : Outbound random interface connections interfaces) {connection : ℕ}
    (numbered : connection < connections)
    (opening : interfaces.writes = [] → connection = 0) (buf : Bytes) :
    Outbound random interface connections
      (interfaces.wrote (fun _ => random) interface (some connection) buf) where
  encoded := outbound.encoded.wrote interface (some connection) buf
  own := by
    intro write member
    simp only [Interfaces.wrote, List.mem_append, List.mem_singleton] at member
    rcases member with earlier | rfl
    · exact outbound.own write earlier
    · rfl
  sized := by
    intro write member
    by_cases opens : interfaces.writes = []
    · simp [Interfaces.wrote, opens] at member
    · simp only [Interfaces.wrote, List.tail_append_of_ne_nil opens, List.mem_append,
        List.mem_singleton] at member
      rcases member with earlier | rfl
      · exact outbound.sized write earlier
      · exact outbound.length_output opens buf
  first := by
    intro write member
    by_cases opens : interfaces.writes = []
    · simp only [Interfaces.wrote, opens, List.nil_append, List.head?_cons, Option.mem_def,
        Option.some.injEq] at member
      rw [← member, opening opens]
    · simp only [Interfaces.wrote, List.head?_append_of_ne_nil _ opens] at member
      exact outbound.first write member
  numbered := by
    intro write member
    simp only [Interfaces.wrote, List.mem_append, List.mem_singleton] at member
    rcases member with earlier | rfl
    · exact outbound.numbered write earlier
    · exact ⟨connection, numbered, rfl⟩

theorem wrote_all (outbound : Outbound random interface connections interfaces) {connection : ℕ}
    (numbered : connection < connections)
    (opening : interfaces.writes = [] → connection = 0) (bufs : List Bytes) :
    Outbound random interface connections
      (bufs.foldl (Interfaces.wrote (fun _ => random) interface (some connection))
        interfaces) := by
  have kept : ∀ interfaces : Interfaces,
      (Outbound random interface connections interfaces ∧
        (interfaces.writes = [] → connection = 0)) → ∀ buf ∈ bufs,
      Outbound random interface connections
          (interfaces.wrote (fun _ => random) interface (some connection) buf) ∧
        ((interfaces.wrote (fun _ => random) interface (some connection) buf).writes = [] →
          connection = 0) := by
    rintro interfaces ⟨outbound, opening⟩ buf -
    exact ⟨outbound.wrote numbered opening buf, by simp [Interfaces.wrote]⟩
  exact (Interfaces.foldl_wrote _ interface _ (And.intro outbound opening) kept).1

theorem took (outbound : Outbound random interface connections interfaces)
    (connection : Option ℕ) (chunk : Bytes) (decrypted : PacketDecrypt × List Bag) :
    Outbound random interface connections
      (interfaces.took interface connection chunk decrypted) :=
  ⟨outbound.encoded.took interface connection chunk decrypted, outbound.own, outbound.sized,
    outbound.first, outbound.numbered⟩

/-- A further connection. -/
theorem accepted (outbound : Outbound random interface connections interfaces) :
    Outbound random interface (connections + 1) interfaces where
  encoded := outbound.encoded
  own := outbound.own
  sized := outbound.sized
  first := outbound.first
  numbered := by
    intro write member
    rcases outbound.numbered write member with ⟨connection, bounded, same⟩
    exact ⟨connection, bounded.trans (Nat.lt_succ_self _), same⟩

end Outbound

section Greeted

variable {connections : ℕ} {interfaces : Interfaces}

theorem Greeted.wrote_all (greeted : Greeted connections interfaces) (random : Int32)
    (interface connection : ℕ) (bufs : List Bytes) :
    Greeted connections
      (bufs.foldl (Interfaces.wrote (fun _ => random) interface (some connection))
        interfaces) := by
  apply Interfaces.foldl_wrote (motive := fun interfaces => Greeted connections interfaces)
  · exact greeted
  · intro interfaces greeted buf _ other bounded
    rw [Interfaces.packetsOn_wrote]
    have earlier : interfaces.packetsOn other ≠ [] := greeted other bounded
    simp [earlier]

/-- A new connection is written to. -/
theorem Greeted.welcomed (greeted : Greeted connections interfaces) (random : Int32)
    (interface : ℕ) {bufs : List Bytes} (some_message : bufs ≠ []) :
    Greeted (connections + 1)
      (bufs.foldl (Interfaces.wrote (fun _ => random) interface (some connections))
        interfaces) := by
  rcases bufs with _ | ⟨buf, rest⟩
  · exact absurd rfl some_message
  · refine Greeted.wrote_all ?_ random interface connections rest
    intro other bounded
    rw [Interfaces.packetsOn_wrote]
    by_cases newest : connections = other
    · simp [newest]
    · have earlier : interfaces.packetsOn other ≠ [] :=
        greeted other (lt_of_le_of_ne (Nat.lt_succ_iff.mp bounded) (Ne.symm newest))
      simp [earlier]

theorem Greeted.connections_eq_zero (greeted : Greeted connections interfaces)
    (none : interfaces.writes = []) : connections = 0 := by
  by_contra some_connection
  exact greeted 0 (Nat.pos_of_ne_zero some_connection) (by simp [Interfaces.packetsOn, none])

end Greeted

section Run

variable {random : Int32} {server : ServerSocket} {interface : ℕ} {process : Process}

/-- What holds of the server at every moment. -/
structure Serving (random : Int32) (server : ServerSocket) (interface : ℕ) (process : Process) :
    Prop where
  registered : process.Registered server
  outbound : Outbound random interface process.connections process.interfaces
  greeted : Greeted process.connections process.interfaces

theorem create_serving (server : ServerSocket) :
    (create server).Serving random server interface where
  registered := create_registered server
  outbound := Outbound.create_outbound _
  greeted := by simp [Greeted, create]

/-- Every admissible event keeps the description of the writes. -/
theorem Serving.step (serves : server.packetClass = some interface) {event : Event}
    {next : Process} (serving : process.Serving random server interface)
    (admissible : process.Admissible event)
    (stepped : process.step random server event = some next) :
    next.Serving random server interface := by
  rcases serving with ⟨registered, outbound, greeted⟩
  have nextRegistered := step_registered serves registered admissible stepped
  cases event with
  | accept clientFd nonBlock =>
      rw [step_accept registered serves admissible, Option.some.injEq] at stepped
      subst stepped
      exact ⟨nextRegistered, outbound.accepted.wrote_all (Nat.lt_succ_self process.connections)
        greeted.connections_eq_zero _, greeted.welcomed random interface (List.cons_ne_nil _ _)⟩
  | read vfd chunk =>
      rw [step_read registered serves admissible] at stepped
      rcases Option.map_eq_some_iff.mp stepped with ⟨decrypted, -, rfl⟩
      exact ⟨nextRegistered, outbound.took _ chunk decrypted, greeted⟩
  | write vfd buf =>
      rcases step_write registered serves admissible with ⟨peer, found, written⟩
      rw [written, Option.some.injEq] at stepped
      subst stepped
      have numbered := (registered.peer vfd peer found).2.2.2.1
      refine ⟨nextRegistered, outbound.wrote_all numbered ?_ [buf],
        greeted.wrote_all random interface _ [buf]⟩
      intro none
      have := greeted.connections_eq_zero none
      omega
  | error vfd =>
      rw [step_error registered admissible, Option.some.injEq] at stepped
      subst stepped
      exact ⟨nextRegistered, outbound, greeted⟩

theorem written_wrote (connection : ℕ) (bufs : List Bytes) :
    (process.wrote random interface connection bufs).written = process.written ++ bufs := by
  induction bufs generalizing process with
  | nil => exact (List.append_nil _).symm
  | cons buf rest ih =>
      have later := @ih (process.wrote random interface connection [buf])
      rw [show (process.wrote random interface connection [buf]).written =
        process.written ++ [buf] by simp [written, wrote, Interfaces.wrote]] at later
      rw [← List.append_cons] at later
      exact later

/-- An event writes the packets that it requests. -/
theorem step_requested (serves : server.packetClass = some interface) {event : Event}
    {next : Process} (registered : process.Registered server)
    (allowed : Admissible process event)
    (stepped : step random server process event = some next) :
    next.written = process.written ++ event.requested ∧
      next.connections = process.connections + accepts [event] := by
  cases event with
  | accept clientFd nonBlock =>
      rw [step_accept registered serves allowed, Option.some.injEq] at stepped
      subst stepped
      exact ⟨written_wrote _ _, rfl⟩
  | read vfd chunk =>
      rw [step_read registered serves allowed] at stepped
      rcases Option.map_eq_some_iff.mp stepped with ⟨decrypted, -, rfl⟩
      exact ⟨(List.append_nil _).symm, rfl⟩
  | write vfd buf =>
      rcases step_write registered serves allowed with ⟨peer, -, sent⟩
      rw [sent, Option.some.injEq] at stepped
      subst stepped
      exact ⟨written_wrote _ _, rfl⟩
  | error vfd =>
      rw [step_error registered allowed, Option.some.injEq] at stepped
      subst stepped
      exact ⟨(List.append_nil _).symm, rfl⟩

/-- A run writes the requested packets and numbers its connections. -/
theorem run_requested (serves : server.packetClass = some interface) {events : List Event}
    {final : Process} (registered : process.Registered server)
    (admissible : StepsMeet (step random server) Admissible process events)
    (reached : run (step random server) process events = some final) :
    final.written = process.written ++ requested events ∧
      final.connections = process.connections + accepts events := by
  induction events generalizing process with
  | nil =>
      rw [run_nil, Option.some.injEq] at reached
      subst reached
      simp [requested, accepts]
  | cons event rest ih =>
      rw [run_cons, Option.bind_eq_some_iff] at reached
      rcases reached with ⟨next, stepped, later⟩
      have nextRegistered := step_registered serves registered admissible.1 stepped
      rcases ih nextRegistered (admissible.2 next stepped) later with ⟨packets, connections⟩
      rcases step_requested serves registered admissible.1 stepped with ⟨first, accepted⟩
      have counted : accepts (event :: rest) = accepts [event] + accepts rest := by
        rw [accepts, accepts, accepts, ← List.countP_append, List.singleton_append]
      constructor
      · rw [packets, first, requested, requested, List.flatMap_cons, List.append_assoc]
      · rw [connections, accepted, counted, Nat.add_assoc]

end Run

/-! ## The condition for isolation -/

theorem length_flatten_output {writes : List Write}
    (sized : ∀ write ∈ writes, write.output.length = 4 + write.packet.length) :
    (writes.map Write.output).flatten.length = Frames.weight (writes.map Write.packet) := by
  induction writes with
  | nil => rfl
  | cons write rest ih =>
      rw [List.map_cons, List.flatten_cons, List.length_append, List.map_cons, Frames.weight_cons,
        ih fun other member => sized other (List.mem_cons_of_mem _ member),
        sized write List.mem_cons_self]

section Condition

variable {random : Int32} {server : ServerSocket} {interface : ℕ} {process : Process}

theorem Serving.length_outputTo (serving : process.Serving random server interface) {connection : ℕ}
    (later : connection ≠ 0) :
    (process.outputTo connection).length = Frames.weight (process.packetsTo connection) := by
  apply length_flatten_output
  intro write member
  rw [List.mem_filter, decide_eq_true_eq] at member
  rcases member with ⟨member, same⟩
  apply serving.outbound.sized
  cases writes_eq : process.interfaces.writes with
  | nil => simp [writes_eq] at member
  | cons opening rest =>
      rw [writes_eq, List.mem_cons] at member
      rcases member with rfl | member
      · have opening := serving.outbound.first write (by simp [writes_eq])
        exact absurd (Option.some.inj (same.symm.trans opening)) later
      · exact member

/-- A client on a later connection does not obtain its packets from any cutting. -/
theorem Serving.not_delivers (serving : process.Serving random server interface)
    {connection : ℕ} (later : connection ≠ 0)
    (accepted : connection < process.connections) {vfd : ℤ} {chunks : List Bytes}
    (cut : chunks.flatten = process.outputTo connection) :
    ¬PacketDecrypt.Delivers vfd (PacketDecrypt.create (some SimpleXOR.create)) chunks
      (process.packetsTo connection) := by
  intro delivers
  have covered := PacketDecrypt.weight_le_of_delivers delivers
  have lost := PacketDecrypt.length_decipherAll_le SimpleXOR.seedFlag_create chunks
  rw [cut, serving.length_outputTo later] at lost
  have some_weight : 4 ≤ Frames.weight (process.packetsTo connection) :=
    Frames.four_le_weight (serving.greeted connection accepted)
  omega

/-- With one connection, it receives the whole stream of the cipher. -/
theorem Serving.to_only_connection (serving : process.Serving random server interface)
    (only : process.connections ≤ 1) :
    process.packetsTo 0 = process.written ∧
      process.outputTo 0 = (PacketEncrypt.encryptPackets random ⟨some SimpleXOR.create⟩
        (process.written)).2.flatten := by
  have all : (process.interfaces.writes.filter fun write => write.connection = some 0) =
      process.interfaces.writes := by
    rw [List.filter_eq_self]
    intro write member
    rcases serving.outbound.numbered write member with ⟨connection, bounded, same⟩
    have first : connection = 0 := by omega
    rw [same, first, decide_eq_true rfl]
  constructor
  · rw [packetsTo, Interfaces.packetsOn, all, written]
  · rw [outputTo, Interfaces.outputsOn, all, written, serving.outbound.encryptPackets_eq]

theorem Serving.length_outputTo_only (serving : process.Serving random server interface)
    (only : process.connections = 1) :
    (process.outputTo 0).length = 4 + Frames.weight (process.written) := by
  rcases serving.to_only_connection only.le with ⟨packets, output⟩
  have nonempty : process.written ≠ [] :=
    packets ▸ serving.greeted 0 (only ▸ Nat.one_pos)
  rw [output, PacketEncrypt.encryptPackets_fresh random nonempty]
  simp

/-- The client on the only connection obtains its packets if its buffer has room for them. -/
theorem Serving.delivers_iff_hasRoom (serving : process.Serving random server interface)
    (only : process.connections = 1)
    (sendable : ∀ packet ∈ process.written, Sendable packet)
    {chunks : List Bytes} (cut : chunks.flatten = process.outputTo 0)
    (whole : PacketDecrypt.SeedArrivesWhole chunks) (vfd : ℤ) :
    PacketDecrypt.Delivers vfd (PacketDecrypt.create (some SimpleXOR.create)) chunks
        (process.packetsTo 0) ↔
      PacketDecrypt.HasRoom .requested (process.packetsTo 0) PacketDecrypt.newRoom 0
        (PacketDecrypt.sizesAfterSeed chunks) := by
  rcases serving.to_only_connection only.le with ⟨packets, output⟩
  have nonempty : process.written ≠ [] :=
    packets ▸ serving.greeted 0 (only ▸ Nat.one_pos)
  rw [output, PacketEncrypt.encryptPackets_fresh random nonempty] at cut
  rcases PacketDecrypt.decipherAll_stream cut whole with ⟨plain, sizes⟩
  rw [packets, PacketDecrypt.delivers_iff_hasRoom sendable vfd plain, sizes]

end Condition

section Isolation

variable {random : Int32} {server : ServerSocket} {interface : ℕ} {process : Process}

theorem Serving.connections_le_one_of_isolated (serving : process.Serving random server interface)
    (isolated : process.OutboundIsolated) :
    process.connections ≤ 1 := by
  by_contra many
  have accepted : 1 < process.connections := not_le.mp many
  have whole : PacketDecrypt.SeedArrivesWhole [process.outputTo 1] := by
    show 4 ≤ (process.outputTo 1).length
    rw [serving.length_outputTo Nat.one_ne_zero]
    exact Frames.four_le_weight (serving.greeted 1 accepted)
  have delivers := isolated 1 accepted 0 [process.outputTo 1] (by simp) whole
  exact serving.not_delivers Nat.one_ne_zero accepted (by simp) delivers

theorem Serving.weight_le_of_isolated (serving : process.Serving random server interface)
    (sendable : ∀ packet ∈ process.written, Sendable packet)
    (single : process.connections ≤ 1) (isolated : process.OutboundIsolated) :
    Frames.weight (process.written) ≤ 1025 := by
  by_cases none_accepted : process.connections = 0
  · have silent : process.interfaces.writes = [] := by
      apply List.eq_nil_iff_forall_not_mem.mpr
      intro write member
      rcases serving.outbound.numbered write member with ⟨connection, bounded, -⟩
      omega
    simp [written, silent]
  · have only : process.connections = 1 := by omega
    have total := serving.length_outputTo_only only
    by_contra large
    -- the cutting after the seed and 1025 bytes, and after one byte more
    let output := process.outputTo 0
    let chunks := [output.take 1029, (output.drop 1029).take 1, (output.drop 1029).drop 1]
    have cut : chunks.flatten = output := by
      simp only [chunks, List.flatten_cons, List.flatten_nil, List.append_nil,
        List.take_append_drop]
    have length : output.length = 4 + Frames.weight (process.written) := total
    have first : (output.take 1029).length = 1029 := by
      rw [List.length_take]
      omega
    have second : ((output.drop 1029).take 1).length = 1 := by
      rw [List.length_take, List.length_drop]
      omega
    have whole : PacketDecrypt.SeedArrivesWhole chunks := by
      show 4 ≤ (output.take 1029).length
      omega
    have sizes : PacketDecrypt.sizesAfterSeed chunks =
        [1025, 1, ((output.drop 1029).drop 1).length] := by
      simp only [PacketDecrypt.sizesAfterSeed, chunks, List.headD_cons, List.tail_cons,
        List.map_cons, List.map_nil, first, second]
    have delivers := isolated 0 (by omega) 0 chunks cut whole
    rw [serving.delivers_iff_hasRoom only sendable cut whole, sizes] at delivers
    exact PacketDecrypt.not_hasRoom_of_growth delivers

theorem Serving.isolated_of_weight_le (serving : process.Serving random server interface)
    (sendable : ∀ packet ∈ process.written, Sendable packet)
    (single : process.connections ≤ 1)
    (small : Frames.weight (process.written) ≤ 1025) :
    process.OutboundIsolated := by
  intro connection accepted vfd chunks cut whole
  have only : process.connections = 1 := by omega
  have first : connection = 0 := by omega
  subst first
  rw [serving.delivers_iff_hasRoom only sendable cut whole]
  apply PacketDecrypt.hasRoom_of_sum_le_newRoom
  have total := serving.length_outputTo_only only
  have sizes := PacketDecrypt.sum_sizesAfterSeed whole
  rw [cut] at sizes
  omega

end Isolation

theorem sendable_requested {events : List Event}
    (sendable : ∀ vfd buf, Event.write vfd buf ∈ events → Sendable buf) :
    ∀ packet ∈ requested events, Sendable packet := by
  intro packet member
  simp only [requested, List.mem_flatMap] at member
  rcases member with ⟨event, occurs, asked⟩
  cases event with
  | accept clientFd nonBlock =>
      simp only [Event.requested, PacketFunc.simpleServerFunc, PacketFunc.create, List.mem_cons,
        List.not_mem_nil, or_false] at asked
      rcases asked with rfl | rfl <;> simp [Sendable, ofString]
  | write vfd buf =>
      simp only [Event.requested, List.mem_singleton] at asked
      exact asked ▸ sendable vfd buf occurs
  | read vfd chunk => simp [Event.requested] at asked
  | error vfd => simp [Event.requested] at asked

/--
After a run, every client obtains exactly the packets written to its connection from
every cutting of what it received if and only if the run accepted at most one
connection and the frames of the packets it wrote take at most 1025 bytes.  Beyond them some
cutting makes a receiver's buffer of 1024 bytes grow and then writes behind its block.
-/
theorem outboundIsolated_iff (random : Int32) {server : ServerSocket} {interface : ℕ}
    (serves : server.packetClass = some interface) {events : List Event}
    (admissible : StepsMeet (step random server) Admissible (create server) events)
    (sendable : ∀ vfd buf, Event.write vfd buf ∈ events → Sendable buf) {final : Process}
    (reached : run (step random server) (create server) events = some final) :
    final.OutboundIsolated ↔
      accepts events ≤ 1 ∧ Frames.weight (requested events) ≤ 1025 := by
  have states : StatesMeet (step random server) (Serving random server interface)
      (create server) events :=
    statesMeet_of_stepsMeet (Serving.step serves) (create_serving server) admissible
  have serving := states.last reached
  rcases run_requested serves (create_registered server) admissible reached with
    ⟨packets, connections⟩
  have packets : final.written = requested events := packets
  have connections : final.connections = accepts events := by
    rw [connections]
    exact Nat.zero_add _
  have allSendable := sendable_requested sendable
  rw [← packets] at allSendable
  rw [← connections, ← packets]
  constructor
  · intro isolated
    have single := serving.connections_le_one_of_isolated isolated
    exact ⟨single, serving.weight_le_of_isolated allSendable single isolated⟩
  · rintro ⟨single, small⟩
    exact serving.isolated_of_weight_le allSendable single small

/-- The server of the example runs. -/
def exampleServer : ServerSocket := ⟨3, some 0⟩

/-- One connection that is written to after its greetings. -/
def oneConnection : List Event := [.accept 5 true, .write 5 [65]]

/-- A second connection, which only receives its greetings. -/
def twoConnections : List Event := [.accept 5 true, .accept 6 true]

theorem outboundIsolated_oneConnection :
    ∃ final, run (step 0 exampleServer) (create exampleServer) oneConnection = some final ∧
      final.OutboundIsolated := by
  have sendable : ∀ vfd buf, Event.write vfd buf ∈ oneConnection → Sendable buf := by
    simp [oneConnection, Sendable]
  rcases reached : run (step 0 exampleServer) (create exampleServer) oneConnection with _ | final
  · exact absurd reached (by rintro ⟨⟩)
  · exact ⟨final, rfl, (outboundIsolated_iff 0 rfl (by decide +kernel) sendable reached).mpr
      (by decide +kernel)⟩

/-- The second client takes the length of its first greeting for the seed and obtains nothing. -/
theorem not_outboundIsolated_twoConnections :
    StepsMeet (step 0 exampleServer) Admissible (create exampleServer) twoConnections ∧
      ∃ final, run (step 0 exampleServer) (create exampleServer) twoConnections = some final ∧
        ¬final.OutboundIsolated := by
  refine ⟨by decide +kernel, ?_⟩
  have observed : (run (step 0 exampleServer) (create exampleServer) twoConnections).map
      (fun final => (final.connections, (final.outputTo 1).length, final.packetsTo 1,
        (PacketDecrypt.decryptPackets .requested 6
          (PacketDecrypt.create (some SimpleXOR.create)) [final.outputTo 1]).map Prod.snd)) =
      some (2, 31, PacketFunc.simpleServerFunc.greetings, some []) := by
    decide +kernel
  rcases Option.map_eq_some_iff.mp observed with ⟨final, reached, values⟩
  simp only [Prod.mk.injEq] at values
  rcases values with ⟨connections, size, packets, bags⟩
  refine ⟨final, reached, fun isolated => ?_⟩
  have whole : PacketDecrypt.SeedArrivesWhole [final.outputTo 1] := by
    show 4 ≤ (final.outputTo 1).length
    omega
  rcases isolated 1 (by omega) 6 [final.outputTo 1] (by simp) whole with ⟨decoder, delivered⟩
  rw [delivered, packets] at bags
  simp [PacketFunc.simpleServerFunc, PacketFunc.create] at bags

end Process

end SimpleModule
