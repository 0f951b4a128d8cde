import SimpleModule.Packet.HeaderProcess

/-!
# The loop of ReadData

`ReadData` calls `ReadOnceData` until nothing of its input is left.  A turn of this loop uses
a header, the rest of a body or a part of one, and leaves the pusher with the rest of the
input (`Advances`).  By induction over the turns the loop ends where the pusher ends, exactly
if the input is digestible: no byte arrives behind a header that was misread, and no insert
ends behind the block of the buffer.
-/

namespace SimpleModule

open Octets
open Frames (Pusher)

namespace PacketHeaderProcess

/-! ## Turns -/

/-- A bound for the turns of the loop: an empty body takes one without using a byte. -/
def turns (pusher : Pusher) (buf : Bytes) : ℕ :=
  2 * buf.length + if pusher.need = some 0 then 1 else 0

theorem turns_le (pusher : Pusher) (buf : Bytes) : turns pusher buf ≤ 2 * buf.length + 1 := by
  simp only [turns]
  split_ifs <;> omega

/--
No byte arrives while `2 ^ 31` bytes or more are needed, and every insert stays inside the
block.
-/
def Digestible (earlier : Bytes) (pusher : Pusher) (input : Bytes) : Prop :=
  pusher.FedBelow (2 ^ 31) input ∧ InsertsReturn earlier pusher input

theorem digestible_nil (earlier : Bytes) (pusher : Pusher) : Digestible earlier pusher [] :=
  ⟨trivial, insertsReturn_nil earlier pusher⟩

/--
A turn of the loop that has filled the buffer from one level to the next leaves the pusher
with the rest of the input.
-/
structure Advances (pusher : Pusher) (buf : Bytes) (next : Pusher) (rest : Bytes)
    (bodies : List Bytes) : Prop where
  pushAll_eq : pusher.pushAll buf = ((next.pushAll rest).1, bodies ++ (next.pushAll rest).2)
  fedBelow_iff : pusher.FedBelow (2 ^ 31) buf ↔ next.FedBelow (2 ^ 31) rest
  turns_lt : turns next rest < turns pusher buf
  insertsReturn_iff : ∀ earlier : Bytes, InsertsReturn earlier pusher buf ↔
    InsertReturns (earlier.length + pusher.body.length)
        (earlier.length + bodies.flatten.length + next.body.length) ∧
      InsertsReturn (earlier ++ bodies.flatten) next rest

section Parts

variable {size : ℕ} {body buf : Bytes}

theorem pushAll_behind_header (whole : 4 ≤ buf.length) :
    Pusher.initial.pushAll buf =
      Pusher.pushAll ⟨[], some (ofLe (buf.take 4)), []⟩ (buf.drop 4) := by
  have header : (buf.take 4).length = 4 := by simp [whole]
  conv_lhs => rw [← List.take_append_drop 4 buf]
  rw [Pusher.pushAll_append, Pusher.pushAll_header header]
  rfl

theorem turns_behind_header (whole : 4 ≤ buf.length) (pusher : Pusher) :
    turns pusher (buf.drop 4) < turns Pusher.initial buf := by
  have := turns_le pusher (buf.drop 4)
  rw [List.length_drop] at this
  simp only [turns] at this ⊢
  omega

theorem advances_header (whole : 4 ≤ buf.length) :
    Advances Pusher.initial buf ⟨[], some (ofLe (buf.take 4)), []⟩ (buf.drop 4) [] where
  pushAll_eq := pushAll_behind_header whole
  fedBelow_iff := by
    have header : (buf.take 4).length = 4 := by simp [whole]
    conv_lhs => rw [← List.take_append_drop 4 buf]
    rw [Pusher.fedBelow_append, Pusher.pushAll_header header]
    exact and_iff_right (Pusher.fedBelow_header header _)
  turns_lt := turns_behind_header whole _
  insertsReturn_iff := by
    intro earlier
    simp only [InsertsReturn, levels, stored, pushAll_behind_header whole, List.flatten_nil,
      List.append_nil, List.length_nil, Nat.add_zero]
    exact (and_iff_right (Or.inl rfl)).symm

theorem pushAll_whole (positive : 0 < size) (whole : size ≤ buf.length) :
    Pusher.pushAll ⟨[], some size, body⟩ (buf.take size) =
      (Pusher.initial, [body ++ buf.take size]) := by
  have length : (buf.take size).length = size := by simp [whole]
  have nonempty : buf.take size ≠ [] := List.ne_nil_of_length_pos (by omega)
  have complete := Pusher.pushAll_body nonempty body
  rwa [length] at complete

theorem pushAll_behind_body (nonempty : buf ≠ []) (whole : size ≤ buf.length) :
    Pusher.pushAll ⟨[], some size, body⟩ buf =
      ((Pusher.initial.pushAll (buf.drop size)).1,
        [body ++ buf.take size] ++ (Pusher.initial.pushAll (buf.drop size)).2) := by
  rcases Nat.eq_zero_or_pos size with rfl | positive
  · rw [Pusher.pushAll_empty body nonempty]
    simp
  · conv_lhs => rw [← List.take_append_drop size buf]
    rw [Pusher.pushAll_append, pushAll_whole positive whole]

theorem turns_behind_body (body : Bytes) (whole : size ≤ buf.length) :
    turns Pusher.initial (buf.drop size) < turns ⟨[], some size, body⟩ buf := by
  rcases Nat.eq_zero_or_pos size with rfl | positive
  · simp [turns, Pusher.initial]
  · have waits : ¬some size = some 0 := by
      rw [Option.some.injEq]
      omega
    have fresh : ¬Pusher.initial.need = some 0 := by simp [Pusher.initial]
    simp only [turns, List.length_drop, if_neg waits, if_neg fresh]
    omega

theorem advances_whole (body : Bytes) (small : size < 2 ^ 31) (nonempty : buf ≠ [])
    (whole : size ≤ buf.length) :
    Advances ⟨[], some size, body⟩ buf Pusher.initial (buf.drop size)
      [body ++ buf.take size] where
  pushAll_eq := pushAll_behind_body nonempty whole
  fedBelow_iff := by
    rcases Nat.eq_zero_or_pos size with rfl | positive
    · exact Pusher.fedBelow_empty (by norm_num) body buf
    · conv_lhs => rw [← List.take_append_drop size buf]
      rw [Pusher.fedBelow_append, pushAll_whole positive whole]
      exact and_iff_right (Pusher.fedBelow_part small (by simp))
  turns_lt := turns_behind_body body whole
  insertsReturn_iff := by
    intro earlier
    have nothing : Pusher.initial.body = [] := rfl
    simp only [InsertsReturn, levels, stored, pushAll_behind_body nonempty whole,
      List.nil_append, ends, List.cons_append, List.isChain_cons_cons, List.flatten_cons,
      List.flatten_nil, List.append_nil, List.length_append, nothing, List.length_nil,
      Nat.add_zero, Nat.add_assoc]

theorem turns_part (nonempty : buf ≠ []) (short : buf.length < size) (later : Bytes) :
    turns ⟨[], some (size - buf.length), later⟩ (buf.drop buf.length) <
      turns ⟨[], some size, body⟩ buf := by
  have positive := List.length_pos_iff.mpr nonempty
  have waits : ¬some (size - buf.length) = some 0 := by
    rw [Option.some.injEq]
    omega
  simp only [turns, List.drop_length, List.length_nil, if_neg waits]
  omega

theorem advances_part (body : Bytes) (small : size < 2 ^ 31) (nonempty : buf ≠ [])
    (short : buf.length < size) :
    Advances ⟨[], some size, body⟩ buf ⟨[], some (size - buf.length), body ++ buf⟩
      (buf.drop buf.length) [] where
  pushAll_eq := by
    rw [Pusher.pushAll_part short, List.drop_length]
    rfl
  fedBelow_iff := by
    rw [List.drop_length]
    exact iff_of_true (Pusher.fedBelow_part small short.le) trivial
  turns_lt := turns_part nonempty short _
  insertsReturn_iff := by
    intro earlier
    simp only [InsertsReturn, levels, stored, List.drop_length, Pusher.pushAll_part short,
      Pusher.pushAll, List.flatten_nil, List.append_nil, List.length_nil, Nat.add_zero, ends,
      List.nil_append, List.isChain_cons_cons, List.IsChain.singleton, and_true]
    exact (and_iff_left (Or.inl rfl)).symm

theorem Advances.digestible_iff {pusher next : Pusher} {rest : Bytes} {bodies : List Bytes}
    (advances : Advances pusher buf next rest bodies) {earlier : Bytes}
    (returns : InsertReturns (earlier.length + pusher.body.length)
      (earlier.length + bodies.flatten.length + next.body.length)) :
    Digestible earlier pusher buf ↔ Digestible (earlier ++ bodies.flatten) next rest := by
  rw [Digestible, Digestible, advances.fedBelow_iff, advances.insertsReturn_iff,
    and_iff_right returns]

end Parts

namespace Refines

variable {process : PacketHeaderProcess} {vfd : ℤ} {pusher : Pusher} {earlier buf : Bytes}

/-- A turn inside a body: the insert does not return, or a part or all of the body is stored. -/
theorem readBody_cases {size : ℕ} {body : Bytes}
    (refines : process.Refines vfd ⟨[], some size, body⟩ earlier) (small : size < 2 ^ 31)
    (nonempty : buf ≠ []) :
    (process.readOnceData vfd buf = none ∧
        ¬InsertsReturn earlier ⟨[], some size, body⟩ buf) ∨
      ∃ next used bodies pusherNext,
        process.readOnceData vfd buf = some (next, ((used : ℕ) : ℤ), heads earlier bodies) ∧
        next.Shadows vfd pusherNext (earlier ++ bodies.flatten) ∧
        Advances ⟨[], some size, body⟩ buf pusherNext (buf.drop used) bodies ∧
        InsertReturns (earlier.length + body.length)
          (earlier.length + bodies.flatten.length + pusherNext.body.length) := by
  rcases lt_or_ge buf.length size with short | whole
  · have advances := advances_part body small nonempty short
    have level : earlier.length + body.length + buf.length =
        earlier.length + ([] : List Bytes).flatten.length + (body ++ buf).length := by
      simp [Nat.add_assoc]
    by_cases returns : InsertReturns (earlier.length + body.length)
        (earlier.length + body.length + buf.length)
    · rcases refines.readBody_part short returns with ⟨next, returned, nextRefines⟩
      refine Or.inr ⟨next, buf.length, [], _, returned, .refines (by simpa using nextRefines) ?_,
        advances, level ▸ returns⟩
      intro left needed
      have := Option.some.inj needed
      omega
    · refine Or.inl ⟨refines.readBody_eq_none (by rwa [Nat.min_eq_left short.le]), ?_⟩
      intro inside
      exact returns (level ▸ ((advances.insertsReturn_iff earlier).mp inside).1)
  · have advances := advances_whole body small nonempty whole
    have level : earlier.length + body.length + size =
        earlier.length + [body ++ buf.take size].flatten.length + Pusher.initial.body.length := by
      simp [Pusher.initial, whole, Nat.add_assoc]
    by_cases returns : InsertReturns (earlier.length + body.length)
        (earlier.length + body.length + size)
    · rcases refines.readBody_whole whole returns with ⟨next, returned, nextRefines⟩
      refine Or.inr ⟨next, size, [body ++ buf.take size], _, returned,
        .refines (by simpa using nextRefines) ?_, advances, level ▸ returns⟩
      intro left needed
      cases needed
    · refine Or.inl ⟨refines.readBody_eq_none (by rwa [Nat.min_eq_right whole]), ?_⟩
      intro inside
      exact returns (level ▸ ((advances.insertsReturn_iff earlier).mp inside).1)

/-- A turn of the loop: an insert does not return, or the process goes on with the pusher. -/
theorem readOnceData_cases (refines : process.Refines vfd pusher earlier)
    (small : ∀ size, pusher.need = some size → size < 2 ^ 31) (nonempty : buf ≠ [])
    (aligned : (pusher.pushAll buf).1.header = []) :
    (process.readOnceData vfd buf = none ∧ ¬InsertsReturn earlier pusher buf) ∨
      ∃ next used bodies pusherNext,
        process.readOnceData vfd buf = some (next, ((used : ℕ) : ℤ), heads earlier bodies) ∧
        next.Shadows vfd pusherNext (earlier ++ bodies.flatten) ∧
        Advances pusher buf pusherNext (buf.drop used) bodies ∧
        InsertReturns (earlier.length + pusher.body.length)
          (earlier.length + bodies.flatten.length + pusherNext.body.length) := by
  rcases pusher with ⟨header, _ | size, body⟩
  · obtain ⟨same, -⟩ := refines.place
    rw [same] at refines aligned ⊢
    have whole : 4 ≤ buf.length := Pusher.four_le_of_aligned nonempty aligned
    rcases refines.readHeader_eq whole with ⟨next, returned, nextShadows⟩
    exact Or.inr ⟨next, 4, [], _, returned, by simpa using nextShadows, advances_header whole,
      Or.inl rfl⟩
  · obtain ⟨rfl, -⟩ := refines.place
    exact refines.readBody_cases (small size rfl) nonempty

end Refines

/-! ## Runs of the loop -/

namespace Shadows

variable {process : PacketHeaderProcess} {vfd : ℤ} {pusher : Pusher} {earlier : Bytes}

/-- The loop ends where the pusher does, exactly if the input is digestible. -/
theorem readLoop_cases (shadows : process.Shadows vfd pusher earlier) {fuel : ℕ} {buf : Bytes}
    (enough : turns pusher buf < fuel) (aligned : (pusher.pushAll buf).1.header = []) :
    (readLoop vfd fuel process buf = none ∧ ¬Digestible earlier pusher buf) ∨
      ∃ final, readLoop vfd fuel process buf =
          some (final, heads earlier (pusher.pushAll buf).2) ∧
        Digestible earlier pusher buf ∧
        final.Shadows vfd (pusher.pushAll buf).1 (earlier ++ (pusher.pushAll buf).2.flatten) := by
  induction fuel generalizing process pusher earlier buf with
  | zero => omega
  | succ fuel ih =>
      by_cases empty : buf = []
      · subst empty
        exact Or.inr ⟨process, rfl, digestible_nil earlier pusher,
          by simpa [Pusher.pushAll] using shadows⟩
      · have unread : buf.length > 0 := List.length_pos_iff.mpr empty
        rw [readLoop, if_pos unread]
        cases shadows with
        | overruns overruns =>
            refine Or.inl ⟨by simp [overruns.readOnceData_eq_none], ?_⟩
            rcases overruns.behind with ⟨size, large, rfl⟩
            rintro ⟨fed, -⟩
            exact empty ((Pusher.fedBelow_of_le large).mp fed)
        | refines refines small =>
            rcases refines.readOnceData_cases small empty aligned with
              ⟨stuck, outside⟩ |
                ⟨next, used, bodies, pusherNext, returned, nextShadows, advances, returns⟩
            · exact Or.inl ⟨by simp [stuck], fun digestible => outside digestible.2⟩
            · have turns_lt := advances.turns_lt
              rw [advances.pushAll_eq] at aligned
              simp only [returned, Option.bind_eq_bind, Option.bind_some, Int.toNat_natCast]
              rw [advances.digestible_iff returns, advances.pushAll_eq]
              rcases ih nextShadows (by omega) aligned with
                ⟨stuck, indigestible⟩ | ⟨final, ended, digestible, finalShadows⟩
              · exact Or.inl ⟨by simp [stuck], indigestible⟩
              · refine Or.inr ⟨final, by simp [ended, heads_append], digestible, ?_⟩
                simpa using finalShadows

theorem readData_cases (shadows : process.Shadows vfd pusher earlier) {buf : Bytes}
    (aligned : (pusher.pushAll buf).1.header = []) :
    (process.readData vfd buf = none ∧ ¬Digestible earlier pusher buf) ∨
      ∃ final, process.readData vfd buf =
          some (final, heads earlier (pusher.pushAll buf).2) ∧
        Digestible earlier pusher buf ∧
        final.Shadows vfd (pusher.pushAll buf).1 (earlier ++ (pusher.pushAll buf).2.flatten) :=
  shadows.readLoop_cases (Nat.lt_succ_of_le (turns_le pusher buf)) aligned

end Shadows

/-- All inserts that reading the chunks makes return. -/
def AllInsertsReturn : Bytes → Pusher → List Bytes → Prop
  | _, _, [] => True
  | earlier, pusher, chunk :: rest =>
      InsertsReturn earlier pusher chunk ∧
        AllInsertsReturn (earlier ++ (pusher.pushAll chunk).2.flatten) (pusher.pushAll chunk).1 rest

instance decidableAllInsertsReturn : (earlier : Bytes) → (pusher : Pusher) → (chunks : List Bytes) →
    Decidable (AllInsertsReturn earlier pusher chunks)
  | _, _, [] => isTrue trivial
  | earlier, pusher, chunk :: rest =>
      have := decidableAllInsertsReturn (earlier ++ (pusher.pushAll chunk).2.flatten)
        (pusher.pushAll chunk).1 rest
      inferInstanceAs (Decidable (_ ∧ _))

theorem AllInsertsReturn.of_append {earlier : Bytes} {pusher : Pusher} {first second : List Bytes}
    (inside : AllInsertsReturn earlier pusher (first ++ second)) :
    AllInsertsReturn earlier pusher first := by
  induction first generalizing earlier pusher with
  | nil => trivial
  | cons chunk rest ih => exact ⟨inside.1, ih inside.2⟩

/-- Chunks that end outside of headers are read like the input they were cut from. -/
theorem Shadows.readChunks_cases {process : PacketHeaderProcess} {vfd : ℤ} {pusher : Pusher}
    {earlier : Bytes} (shadows : process.Shadows vfd pusher earlier) {chunks : List Bytes}
    (aligned : ∀ front, front <+: chunks → (pusher.pushAll front.flatten).1.header = [])
    (fed : pusher.FedBelow (2 ^ 31) chunks.flatten) :
    (readChunks vfd process chunks = none ∧ ¬AllInsertsReturn earlier pusher chunks) ∨
      ∃ final, readChunks vfd process chunks =
          some (final, heads earlier (pusher.pushAll chunks.flatten).2) ∧
        AllInsertsReturn earlier pusher chunks ∧
        final.Shadows vfd (pusher.pushAll chunks.flatten).1
          (earlier ++ (pusher.pushAll chunks.flatten).2.flatten) := by
  induction chunks generalizing process pusher earlier with
  | nil => exact Or.inr ⟨process, rfl, trivial, by simpa [Pusher.pushAll] using shadows⟩
  | cons chunk rest ih =>
      rw [List.flatten_cons, Pusher.fedBelow_append] at fed
      have chunkAligned : (pusher.pushAll chunk).1.header = [] := by
        have first := aligned [chunk] ⟨rest, rfl⟩
        rwa [List.flatten_singleton] at first
      have laterAligned : ∀ front, front <+: rest →
          ((pusher.pushAll chunk).1.pushAll front.flatten).1.header = [] := by
        intro front before
        have both := aligned (chunk :: front) (List.cons_prefix_cons.mpr ⟨rfl, before⟩)
        rwa [List.flatten_cons, Pusher.pushAll_append] at both
      rw [List.flatten_cons, readChunks, Pusher.pushAll_append]
      rcases shadows.readData_cases chunkAligned with
        ⟨stuck, indigestible⟩ | ⟨next, returned, digestible, nextShadows⟩
      · refine Or.inl ⟨by simp [stuck], ?_⟩
        intro inside
        exact indigestible ⟨fed.1, inside.1⟩
      · simp only [returned, Option.bind_eq_bind, Option.bind_some]
        rcases ih nextShadows laterAligned fed.2 with
          ⟨stuck, outside⟩ | ⟨final, ended, inside, finalShadows⟩
        · exact Or.inl ⟨by simp [stuck], fun all => outside all.2⟩
        · refine Or.inr ⟨final, by simp [ended, heads_append], ⟨digestible.2, inside⟩, ?_⟩
          simpa using finalShadows

end PacketHeaderProcess

end SimpleModule
