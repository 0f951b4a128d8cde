import SimpleModule.Socket.Server

/-!
# Inbound isolation of connections

Clients encrypt their packets with ciphers of their own, while all chunks the server
reads pass through the one receiver of its interface object.  As long as every chunk
of a run is read from the same connection, the server hands over exactly the packets
that are complete in the bytes read so far.  A second connection finds the receiver
seeded by the first one.
-/

namespace SimpleModule

open Octets Runs

/-- A client: the seed its cipher draws and the packets it sends. -/
structure Client where
  seed : Int32
  packets : List Bytes

/-- The bytes a client sends with a fresh `clsPacketEncrypt` and a fresh cipher. -/
def Client.stream (client : Client) : Bytes :=
  (PacketEncrypt.encryptPackets client.seed ⟨some SimpleXOR.create⟩ client.packets).2.flatten

/-- Chunks from the beginning of a client's stream, the first of them with the whole seed. -/
structure Client.Arrives (client : Client) (chunks : List Bytes) : Prop where
  sent : chunks.flatten <+: client.stream
  seed : chunks ≠ [] → PacketDecrypt.SeedArrivesWhole chunks

namespace Process

/-- The chunk an event reads from a connection, if any. -/
def Event.chunksFrom (vfd : ℤ) : Event → List Bytes
  | .read source chunk => if source = vfd then [chunk] else []
  | _ => []

/-- The chunks that a run reads from a connection. -/
def chunksFrom (vfd : ℤ) (events : List Event) : List Bytes :=
  events.flatMap (Event.chunksFrom vfd)

/-- The bags that the server has handed over. -/
def bags (process : Process) : List Bag := process.interfaces.handovers.map Handover.bag

/-- The contents of the bags handed over under a descriptor. -/
def bagsUnder (process : Process) (vfd : ℤ) : List Bytes :=
  (process.bags.filter fun bag => bag.vfd = vfd).map Bag.contents

/-- All chunks of the run are read from one connection. -/
def SingleReader (reader : ℤ) (events : List Event) : Prop :=
  ∀ vfd chunk, Event.read vfd chunk ∈ events → vfd = reader

section Run

variable {random : Int32} {server : ServerSocket} {interface : ℕ} {process : Process}

theorem bags_took (vfd : ℤ) (chunk : Bytes) (decrypted : PacketDecrypt × List Bag) :
    (process.took interface vfd chunk decrypted).bags = process.bags ++ decrypted.2 := by
  simp [bags, took, Interfaces.took, Function.comp_def]

/-- Writing changes neither the receiver nor the bags. -/
theorem wrote_receiver (process : Process) (random : Int32) (interface connection : ℕ)
    (bufs : List Bytes) :
    ((process.wrote random interface connection bufs).interfaces.funcs interface).decryptObj =
        (process.interfaces.funcs interface).decryptObj ∧
      (process.wrote random interface connection bufs).bags = process.bags := by
  apply Interfaces.foldl_wrote (motive := fun interfaces : Interfaces =>
    (interfaces.funcs interface).decryptObj = (process.interfaces.funcs interface).decryptObj ∧
      interfaces.handovers.map Handover.bag = process.bags)
  · exact ⟨rfl, rfl⟩
  · intro interfaces kept buf _
    rw [(Interfaces.funcs_wrote (fun _ => random) interface _ interfaces buf interface).1]
    exact kept

/-- An event gives the receiver of the interface the chunk that it brings, if any. -/
theorem step_of_decryptPackets (serves : server.packetClass = some interface)
    (registered : process.Registered server) {event : Event} (allowed : Admissible process event)
    {reader : ℤ} (single : ∀ vfd chunk, event = .read vfd chunk → vfd = reader)
    {chunks : List Bytes} {decoder : PacketDecrypt} {bags : List Bag}
    (decrypted : PacketDecrypt.decryptPackets .requested reader
      (process.interfaces.funcs interface).decryptObj (event.chunksFrom reader ++ chunks) =
        some (decoder, bags)) :
    ∃ next, step random server process event = some next ∧
      ∃ rest, PacketDecrypt.decryptPackets .requested reader
          (next.interfaces.funcs interface).decryptObj chunks = some (decoder, rest) ∧
        next.bags ++ rest = process.bags ++ bags := by
  cases event with
  | accept clientFd nonBlock =>
      have kept := wrote_receiver (process.accepted server clientFd) random interface
        process.connections PacketFunc.simpleServerFunc.greetings
      refine ⟨_, step_accept registered serves allowed, bags, ?_, ?_⟩
      · rw [kept.1]
        exact decrypted
      · rw [kept.2]
        rfl
  | read vfd chunk =>
      obtain rfl : vfd = reader := single vfd chunk rfl
      simp only [Event.chunksFrom, if_true, List.singleton_append, PacketDecrypt.decryptPackets,
        bind, Option.bind_eq_some_iff, pure, Option.some.injEq, Prod.mk.injEq] at decrypted
      rcases decrypted with ⟨first, head, ⟨lastDecoder, rest⟩, tail, rfl, rfl⟩
      have stepped : step random server process (.read vfd chunk) =
          some (process.took interface vfd chunk first) := by
        rw [step_read registered serves allowed, head]
        rfl
      refine ⟨_, stepped, rest, ?_, ?_⟩
      · simpa [took, Interfaces.took] using tail
      · rw [bags_took, List.append_assoc]
  | write vfd buf =>
      rcases step_write registered serves allowed with ⟨peer, -, written⟩
      have kept := wrote_receiver process random interface peer.connection [buf]
      refine ⟨_, written, bags, ?_, ?_⟩
      · rw [kept.1]
        exact decrypted
      · rw [kept.2]
  | error vfd => exact ⟨_, step_error registered allowed, bags, decrypted, rfl⟩

/-- With a single reader the receiver of the interface processes that connection's chunks. -/
theorem run_of_decryptPackets (serves : server.packetClass = some interface)
    (registered : process.Registered server) {reader : ℤ} {events : List Event}
    (admissible : StepsMeet (step random server) Admissible process events)
    (single : SingleReader reader events) {decoder : PacketDecrypt} {bags : List Bag}
    (decrypted : PacketDecrypt.decryptPackets .requested reader
      (process.interfaces.funcs interface).decryptObj (chunksFrom reader events) =
        some (decoder, bags)) :
    ∃ final, run (step random server) process events = some final ∧
      final.bags = process.bags ++ bags := by
  induction events generalizing process bags with
  | nil =>
      simp only [chunksFrom, List.flatMap_nil, PacketDecrypt.decryptPackets, Option.some.injEq,
        Prod.mk.injEq] at decrypted
      exact ⟨process, rfl, by simp [← decrypted.2]⟩
  | cons event rest ih =>
      rcases admissible with ⟨allowed, later⟩
      have here : ∀ vfd chunk, event = .read vfd chunk → vfd = reader := by
        rintro vfd chunk rfl
        exact single vfd chunk List.mem_cons_self
      have restSingle : SingleReader reader rest :=
        fun vfd chunk member => single vfd chunk (List.mem_cons_of_mem _ member)
      rw [chunksFrom, List.flatMap_cons] at decrypted
      rcases step_of_decryptPackets serves registered allowed here decrypted with
        ⟨next, stepped, restBags, remaining, together⟩
      rcases ih (step_registered serves registered allowed stepped) (later next stepped)
        restSingle remaining with ⟨final, reached, finalBags⟩
      refine ⟨final, ?_, finalBags.trans together⟩
      rw [run_cons, stepped]
      exact reached

end Run

theorem bagsUnder_single {process : Process} {reader : ℤ} {contents : List Bytes}
    (bags : process.bags = contents.map (Bag.mk reader)) (vfd : ℤ) :
    process.bagsUnder vfd = if vfd = reader then contents else [] := by
  simp only [bagsUnder, bags]
  split_ifs with same
  · subst same
    simp [List.filter_map, Function.comp_def]
  · simp [List.filter_map, Function.comp_def, Ne.symm same]

theorem chunksFrom_eq_nil {reader vfd : ℤ} (other : vfd ≠ reader) {events : List Event}
    (single : SingleReader reader events) : chunksFrom vfd events = [] := by
  simp only [chunksFrom, List.flatMap_eq_nil_iff]
  intro event member
  cases event with
  | read source chunk =>
      have same := single source chunk member
      simp [Event.chunksFrom, same, other.symm]
  | accept clientFd nonBlock => rfl
  | write source buf => rfl
  | error source => rfl

/--
In every run that reads from a single connection chunks for which the receiver's buffer has
room, the server has handed over under each descriptor exactly the packets that the client
there sent and that are complete in the bytes read.
-/
theorem inbound_isolated_of_singleReader (random : Int32) {server : ServerSocket} {interface : ℕ}
    (serves : server.packetClass = some interface) (clients : ℤ → Client) {events : List Event}
    (admissible : StepsMeet (step random server) Admissible (create server) events)
    (sendable : ∀ vfd, ∀ packet ∈ (clients vfd).packets, Sendable packet)
    (arrives : ∀ vfd, (clients vfd).Arrives (chunksFrom vfd events)) {reader : ℤ}
    (single : SingleReader reader events)
    (hasRoom : PacketDecrypt.HasRoom .requested (clients reader).packets PacketDecrypt.newRoom 0
      (PacketDecrypt.sizesAfterSeed (chunksFrom reader events))) :
    ∃ final, run (step random server) (create server) events = some final ∧
      ∀ vfd, final.bagsUnder vfd =
        Frames.complete (clients vfd).packets ((chunksFrom vfd events).flatten.length - 4) := by
  have decrypted : ∃ decoder, PacketDecrypt.decryptPackets .requested reader
      (PacketDecrypt.create (some SimpleXOR.create)) (chunksFrom reader events) =
      some (decoder, (Frames.complete (clients reader).packets
        ((chunksFrom reader events).flatten.length - 4)).map (Bag.mk reader)) := by
    by_cases silent : chunksFrom reader events = []
    · exact ⟨PacketDecrypt.create (some SimpleXOR.create), by
        simp [silent, PacketDecrypt.decryptPackets]⟩
    · exact PacketDecrypt.decryptPackets_session_prefix reader (sendable reader)
        (arrives reader).sent ((arrives reader).seed silent) hasRoom
  rcases decrypted with ⟨decoder, decrypted⟩
  rcases run_of_decryptPackets serves (create_registered server) admissible single decrypted with
    ⟨final, reached, bags⟩
  refine ⟨final, reached, fun vfd => ?_⟩
  rw [bagsUnder_single bags]
  split_ifs with same
  · rw [same]
  · simp [chunksFrom_eq_nil same single]

/-- Clients on two descriptors that each send one empty packet. -/
def twoClients (vfd : ℤ) : Client := ⟨0, if vfd = 5 ∨ vfd = 6 then [[]] else []⟩

/-- Only the first of the two clients is read from. -/
def oneRead : List Event :=
  [.accept 5 true, .accept 6 true, .read 5 [0, 0, 0, 0, 0, 0], .read 5 [0, 0]]

/-- The whole streams of both clients, one after the other. -/
def twoReads : List Event :=
  [.accept 5 true, .accept 6 true, .read 5 [0, 0, 0, 0, 0, 0, 0, 0],
    .read 6 [0, 0, 0, 0, 0, 0, 0, 0]]

theorem inbound_isolated_oneRead :
    ∃ final, run (step 0 ⟨3, some 0⟩) (create ⟨3, some 0⟩) oneRead = some final ∧
      ∀ vfd, final.bagsUnder vfd =
        Frames.complete (twoClients vfd).packets ((chunksFrom vfd oneRead).flatten.length - 4) := by
  have single : SingleReader 5 oneRead := by
    intro vfd chunk member
    simp only [oneRead, List.mem_cons, Event.read.injEq, reduceCtorEq, List.not_mem_nil,
      false_or, or_false] at member
    rcases member with ⟨same, -⟩ | ⟨same, -⟩ <;> exact same
  have admissible : StepsMeet (step 0 ⟨3, some 0⟩) Admissible (create ⟨3, some 0⟩) oneRead := by
    decide +kernel
  have sendable : ∀ vfd, ∀ packet ∈ (twoClients vfd).packets, Sendable packet := by
    intro vfd packet member
    simp only [twoClients] at member
    split at member <;> simp_all [Sendable]
  have arrives : ∀ vfd, (twoClients vfd).Arrives (chunksFrom vfd oneRead) := by
    intro vfd
    by_cases same : vfd = 5
    · subst same
      exact ⟨by decide +kernel, fun _ => by decide⟩
    · rw [chunksFrom_eq_nil same single]
      exact ⟨List.nil_prefix, fun absent => absurd rfl absent⟩
  exact inbound_isolated_of_singleReader 0 rfl twoClients admissible sendable arrives single
    (by decide)

/-- The second client's seed is taken for the header of an empty packet. -/
theorem inbound_mixed_twoReads :
    StepsMeet (step 0 ⟨3, some 0⟩) Admissible (create ⟨3, some 0⟩) twoReads ∧
      (∀ vfd ∈ ([5, 6] : List ℤ), (chunksFrom vfd twoReads).flatten = (twoClients vfd).stream ∧
        PacketDecrypt.SeedArrivesWhole (chunksFrom vfd twoReads)) ∧
      ∃ final, run (step 0 ⟨3, some 0⟩) (create ⟨3, some 0⟩) twoReads = some final ∧
        final.bagsUnder 6 ≠ (twoClients 6).packets := by
  refine ⟨by decide +kernel, by decide +kernel, ?_⟩
  have delivered : (run (step 0 ⟨3, some 0⟩) (create ⟨3, some 0⟩) twoReads).map
      (fun final => final.bagsUnder 6) = some [[], []] := by decide +kernel
  rcases Option.map_eq_some_iff.mp delivered with ⟨final, reached, bags⟩
  exact ⟨final, reached, by rw [bags]; decide⟩

end Process

end SimpleModule
