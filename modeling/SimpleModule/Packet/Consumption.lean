import SimpleModule.Packet.ReadLoop

/-!
# Input used to its end

`ReadData` goes on by whatever `ReadOnceData` returns.  `Consumes` is the sequence of these
numbers.  It comes to an end exactly if the input is digestible, whatever the headers in it
announce.
-/

namespace SimpleModule

open Octets

namespace PacketHeaderProcess

open Frames (Pusher)

/--
`ReadData` returns, and its calls of `ReadOnceData` return the given numbers, none of which
is negative or greater than what is left.  In a body the number is the length that
`InsertData` was called with.
-/
inductive Consumes (vfd : ℤ) :
    PacketHeaderProcess → Bytes → List ℤ → PacketHeaderProcess → Prop
  | done (process : PacketHeaderProcess) : Consumes vfd process [] [] process
  | turn {process next final : PacketHeaderProcess} {buf : Bytes} {retLen : ℤ}
      {found : List Found} {lens : List ℤ} (unread : buf ≠ [])
      (returned : process.readOnceData vfd buf = some (next, retLen, found))
      (nonneg : 0 ≤ retLen) (within : retLen ≤ buf.length)
      (later : Consumes vfd next (buf.drop retLen.toNat) lens final) :
      Consumes vfd process buf (retLen :: lens) final

theorem readOnceData_within {process next : PacketHeaderProcess} {vfd retLen : ℤ} {buf : Bytes}
    {found : List Found} (returned : process.readOnceData vfd buf = some (next, retLen, found)) :
    0 ≤ retLen ∧ retLen ≤ buf.length := by
  rw [readOnceData] at returned
  cases status : process.status with
  | header =>
      simp only [status, readHeader] at returned
      split_ifs at returned with split whole
      · cases returned
        omega
      · cases returned
        omega
  | body =>
      simp only [status, readBody] at returned
      by_cases defined : vfd ≠ process.processVfd ∨ min (buf.length : ℤ) process.needBufLen < 0
      · rw [if_pos defined] at returned
        cases returned
      · rw [if_neg defined, Option.bind_eq_bind, Option.bind_eq_some_iff] at returned
        rcases returned with ⟨inserted, -, returned⟩
        split_ifs at returned with short whole
        · cases returned
          omega
        · cases returned
          omega

theorem Consumes.sum_eq {vfd : ℤ} {process final : PacketHeaderProcess} {buf : Bytes}
    {lens : List ℤ} (consumes : Consumes vfd process buf lens final) : lens.sum = buf.length := by
  induction consumes with
  | done process => rfl
  | turn unread returned nonneg within later ih =>
      rw [List.sum_cons, ih, List.length_drop]
      omega

/-- A loop that ends has used its input. -/
theorem consumes_of_readLoop {vfd : ℤ} {fuel : ℕ} {process final : PacketHeaderProcess}
    {buf : Bytes} {found : List Found}
    (ended : readLoop vfd fuel process buf = some (final, found)) :
    ∃ lens, Consumes vfd process buf lens final := by
  induction fuel generalizing process buf found with
  | zero => cases ended
  | succ fuel ih =>
      rw [readLoop] at ended
      by_cases empty : buf = []
      · subst empty
        cases ended
        exact ⟨[], .done _⟩
      · rw [if_pos (List.length_pos_iff.mpr empty)] at ended
        simp only [Option.bind_eq_bind, Option.bind_eq_some_iff] at ended
        rcases ended with ⟨⟨next, retLen, completed⟩, returned, ⟨last, more⟩, looped, same⟩
        cases same
        rcases ih looped with ⟨lens, later⟩
        rcases readOnceData_within returned with ⟨nonneg, within⟩
        exact ⟨retLen :: lens, .turn empty returned nonneg within later⟩

theorem Consumes.readLoop_eq {vfd : ℤ} {process final : PacketHeaderProcess} {buf : Bytes}
    {lens : List ℤ} (consumes : Consumes vfd process buf lens final) {fuel : ℕ}
    (enough : lens.length < fuel) :
    ∃ found, readLoop vfd fuel process buf = some (final, found) := by
  induction consumes generalizing fuel with
  | done process =>
      cases fuel with
      | zero => cases enough
      | succ fuel => exact ⟨[], rfl⟩
  | turn unread returned nonneg within later ih =>
      cases fuel with
      | zero => cases enough
      | succ fuel =>
          rw [List.length_cons] at enough
          rcases ih (Nat.lt_of_succ_lt_succ enough) with ⟨found, looped⟩
          rw [readLoop, if_pos (List.length_pos_iff.mpr unread)]
          simp only [returned, looped, Option.bind_eq_bind, Option.bind_some]
          exact ⟨_, rfl⟩

/-! ## The loop -/

namespace Shadows

variable {process : PacketHeaderProcess} {vfd : ℤ} {pusher : Pusher} {earlier : Bytes}

/-- The calls of `ReadOnceData` come to an end exactly if the input is digestible. -/
theorem consumes_iff (shadows : process.Shadows vfd pusher earlier) {buf : Bytes}
    (aligned : (pusher.pushAll buf).1.header = []) :
    (∃ lens final, Consumes vfd process buf lens final) ↔ Digestible earlier pusher buf := by
  constructor
  · rintro ⟨lens, final, consumes⟩
    have fuel : lens.length < max lens.length (turns pusher buf) + 1 := by omega
    have enough : turns pusher buf < max lens.length (turns pusher buf) + 1 := by omega
    rcases consumes.readLoop_eq fuel with ⟨found, ended⟩
    rcases shadows.readLoop_cases enough aligned with
      ⟨stuck, -⟩ | ⟨_, -, digestible, -⟩
    · rw [stuck] at ended
      cases ended
    · exact digestible
  · intro digestible
    rcases shadows.readLoop_cases (Nat.lt_succ_self _) aligned with
      ⟨-, indigestible⟩ | ⟨final, ended, -, -⟩
    · exact absurd digestible indigestible
    · rcases consumes_of_readLoop ended with ⟨lens, consumes⟩
      exact ⟨lens, final, consumes⟩

/-- Between two frames a process takes the bytes of any peer. -/
theorem of_peer (shadows : process.Shadows vfd pusher earlier) {peer : ℤ}
    (samePeer : process.status = .body → peer = process.processVfd) :
    process.Shadows peer pusher earlier := by
  cases shadows with
  | overruns overruns => exact .overruns overruns
  | refines refines small =>
      refine .refines { refines with place := ?_ } small
      have place := refines.place
      rw [AtPlace] at place ⊢
      cases need : pusher.need with
      | none =>
          rw [need] at place
          exact place
      | some size =>
          rw [need] at place
          rcases place with ⟨header, status, needed, same⟩
          exact ⟨header, status, needed, (samePeer status).symm⟩

end Shadows

/-- In a body the bytes of another peer end the process. -/
theorem readOnceData_other_peer {process : PacketHeaderProcess} {vfd : ℤ}
    (status : process.status = .body) (other : vfd ≠ process.processVfd) (buf : Bytes) :
    process.readOnceData vfd buf = none := by
  simp only [readOnceData, status, readBody, if_pos (Or.inl other)]

/-! ## Chunks that do not split headers -/

/-- The process after chunks that each end outside of a header, with all the bytes received. -/
inductive Reached : (received : Bytes) → PacketHeaderProcess → Prop
  | create {memory : Bytes} (whole : memory.length = 4) : Reached [] (create memory)
  | read {received chunk : Bytes} {process next : PacketHeaderProcess} {vfd : ℤ}
      {found : List Found} (reached : Reached received process)
      (aligned : (Pusher.initial.pushAll (received ++ chunk)).1.header = [])
      (returned : process.readData vfd chunk = some (next, found)) :
      Reached (received ++ chunk) next

/-- A chunk that is read to its end comes from the right peer. -/
theorem peer_of_consumes {process final : PacketHeaderProcess} {vfd : ℤ} {chunk : Bytes}
    {lens : List ℤ} (consumes : Consumes vfd process chunk lens final) (nonempty : chunk ≠ [])
    (status : process.status = .body) : vfd = process.processVfd := by
  by_contra other
  cases consumes with
  | done => exact nonempty rfl
  | turn unread returned nonneg within later =>
      rw [readOnceData_other_peer status other] at returned
      cases returned

theorem Reached.shadows {received : Bytes} {process : PacketHeaderProcess}
    (reached : Reached received process) :
    Pusher.initial.FedBelow (2 ^ 31) received ∧
      ∃ vfd, process.Shadows vfd (Pusher.initial.pushAll received).1
        (Pusher.initial.pushAll received).2.flatten := by
  induction reached with
  | create whole => exact ⟨trivial, -1, create_shadows whole (-1)⟩
  | @read received chunk process next vfd found reached aligned returned ih =>
      rcases ih with ⟨fed, peer, shadows⟩
      by_cases empty : chunk = []
      · subst empty
        cases returned
        rw [List.append_nil]
        exact ⟨fed, peer, shadows⟩
      · rcases consumes_of_readLoop returned with ⟨lens, consumes⟩
        have followed := shadows.of_peer (peer_of_consumes consumes empty)
        rw [Pusher.pushAll_append] at aligned ⊢
        rcases followed.readData_cases aligned with
          ⟨stuck, -⟩ | ⟨final, ended, digestible, finalShadows⟩
        · rw [stuck] at returned
          cases returned
        · rw [ended] at returned
          cases returned
          rw [Pusher.fedBelow_append]
          refine ⟨⟨fed, digestible.1⟩, vfd, ?_⟩
          simpa using finalShadows

/-- `ReadData` returns after turns whose lengths are in range and add up to the input. -/
def ConsumesExactly (process : PacketHeaderProcess) (vfd : ℤ) (chunk : Bytes) : Prop :=
  ∃ lens final, Consumes vfd process chunk lens final ∧ lens.sum = chunk.length

/--
A further chunk is used exactly to its end exactly if it is empty or comes from the peer
whose body is being read, no byte so far arrives behind a header of `2 ^ 31` or more, and
none of its inserts ends behind the block of the buffer.
-/
theorem consumesExactly_iff {received chunk : Bytes} {process : PacketHeaderProcess}
    (reached : Reached received process)
    (aligned : (Pusher.initial.pushAll (received ++ chunk)).1.header = []) (vfd : ℤ) :
    process.ConsumesExactly vfd chunk ↔
      (chunk ≠ [] → process.status = .body → vfd = process.processVfd) ∧
        Pusher.initial.FedBelow (2 ^ 31) (received ++ chunk) ∧
        InsertsReturn (Pusher.initial.pushAll received).2.flatten
          (Pusher.initial.pushAll received).1 chunk := by
  rcases reached.shadows with ⟨fed, peer, shadows⟩
  rw [Pusher.fedBelow_append, and_iff_right fed, ← Digestible]
  rw [Pusher.pushAll_append] at aligned
  by_cases empty : chunk = []
  · subst empty
    exact iff_of_true ⟨[], process, .done process, rfl⟩
      ⟨fun nonempty => absurd rfl nonempty, digestible_nil _ _⟩
  · constructor
    · rintro ⟨lens, final, consumes, -⟩
      have samePeer := peer_of_consumes consumes empty
      refine ⟨fun _ => samePeer, ?_⟩
      exact ((shadows.of_peer samePeer).consumes_iff aligned).mp ⟨lens, final, consumes⟩
    · rintro ⟨samePeer, digestible⟩
      rcases ((shadows.of_peer (samePeer empty)).consumes_iff aligned).mpr digestible with
        ⟨lens, final, consumes⟩
      exact ⟨lens, final, consumes, consumes.sum_eq⟩

theorem consumesExactly_one_frame :
    Reached [] (create [0, 0, 0, 0]) ∧
      (create [0, 0, 0, 0]).ConsumesExactly 1 [1, 0, 0, 0, 7] := by
  have reached : Reached [] (create [0, 0, 0, 0]) := .create rfl
  have fed : Pusher.initial.FedBelow (2 ^ 31) ([] ++ [1, 0, 0, 0, 7]) := by
    simp [Pusher.FedBelow, Pusher.push, Pusher.gather, Pusher.initial, ofLe]
  refine ⟨reached, (consumesExactly_iff reached (by decide) 1).mpr ⟨?_, fed, by decide⟩⟩
  intro _ status
  cases status

/-- A header of `2 ^ 31` and one more byte: the process inserts a negative number of bytes. -/
theorem not_consumesExactly_negative_header :
    Reached [] (create [0, 0, 0, 0]) ∧
      (Pusher.initial.pushAll ([] ++ [0, 0, 0, 128, 7])).1.header = [] ∧
      ¬(create [0, 0, 0, 0]).ConsumesExactly 1 [0, 0, 0, 128, 7] := by
  refine ⟨.create rfl, by decide, ?_⟩
  rintro ⟨lens, final, consumes, -⟩
  have digestible := ((create_shadows (show [0, 0, 0, 0].length = 4 from rfl) 1).consumes_iff
    (by decide)).mp ⟨lens, final, consumes⟩
  have fed := digestible.1
  simp [Pusher.FedBelow, Pusher.push, Pusher.gather, Pusher.initial, ofLe] at fed

end PacketHeaderProcess

end SimpleModule
